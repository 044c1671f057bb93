import MetaAttack.Spec.Expr
import MetaAttack.Spec.Parsed

/-!
# Reading expressions

From loose to tight: the three set operators share one left-associative level, then the dot, also
left-associative, then the suffixes `*` and `[Asset]`. Parentheses group and leave no node behind;
the grouped expression takes their span.
-/

namespace MetaAttack

/-- The set operator that a token stands for. -/
def SetOp.ofToken? : Token → Option SetOp
  | .sign .union => some .union
  | .sign .intersection => some .intersection
  | .sign .minus => some .difference
  | _ => none

namespace Expr

/-- Reads suffixes and applies them to `e`. -/
def suffixes (eof : Span) (e : Expr) (ts : List Lexeme) :
    Except ParseError (Parsed Expr (ts.length + 1)) :=
  match ts with
  | ⟨.sign .star, s⟩ :: r => do
      let all ← suffixes eof (.closure e (e.span.merge s)) r
      return all.behind 1
  | ⟨.sign .lbracket, _⟩ :: r => do
      let asset ← ident eof r
      let close ← sign .rbracket eof asset.rest
      let all ← suffixes eof (.restrict e asset.value (e.span.merge close.value)) close.rest
      return ((asset.before close).beforeAny all).behind 2
  | ts => return .leaving e ts
termination_by ts.length
decreasing_by
  · exact Nat.lt_succ_self _
  · exact Nat.lt_succ_of_lt (asset.before close).rest_lt

mutual

/-- Reads an expression. -/
def read (eof : Span) (ts : List Lexeme) : Except ParseError (Parsed Expr ts.length) := do
  let first ← chain eof ts
  let all ← operands eof first.value first.rest
  return first.beforeAny all
termination_by 4 * ts.length + 3
decreasing_by
  · exact Nat.lt_succ_self _
  · have := first.rest_lt
    omega

/-- Reads set operators with their right operands and applies them, in turn, to `left`. -/
def operands (eof : Span) (left : Expr) (ts : List Lexeme) :
    Except ParseError (Parsed Expr (ts.length + 1)) :=
  match ts with
  | [] => return .leaving left []
  | l :: r =>
      match SetOp.ofToken? l.token with
      | some op => do
          let right ← chain eof r
          let all ← operands eof (.combine op left right.value (left.span.merge right.value.span))
            right.rest
          return (right.beforeAny all).behind 2
      | none => return .leaving left (l :: r)
termination_by 4 * ts.length + 3
decreasing_by
  · simp only [List.length_cons]; omega
  · have := right.rest_lt
    simp only [List.length_cons]; omega

/-- Reads expressions with dots between them. -/
def chain (eof : Span) (ts : List Lexeme) : Except ParseError (Parsed Expr ts.length) := do
  let first ← operand eof ts
  let all ← links eof first.value first.rest
  return first.beforeAny all
termination_by 4 * ts.length + 2
decreasing_by
  · exact Nat.lt_succ_self _
  · have := first.rest_lt
    omega

/-- Reads dots with what follows them and joins it, in turn, to `left`. -/
def links (eof : Span) (left : Expr) (ts : List Lexeme) :
    Except ParseError (Parsed Expr (ts.length + 1)) :=
  match ts with
  | ⟨.sign .dot, _⟩ :: r => do
      let right ← operand eof r
      let all ← links eof (.collect left right.value (left.span.merge right.value.span)) right.rest
      return (right.beforeAny all).behind 2
  | ts => return .leaving left ts
termination_by 4 * ts.length + 3
decreasing_by
  · simp only [List.length_cons]; omega
  · have := right.rest_lt
    simp only [List.length_cons]; omega

/-- Reads a name, a call or a group, with the suffixes behind it. -/
def operand (eof : Span) (ts : List Lexeme) : Except ParseError (Parsed Expr ts.length) := do
  let first ← primary eof ts
  let all ← suffixes eof first.value first.rest
  return first.beforeAny all
termination_by 4 * ts.length + 1
decreasing_by exact Nat.lt_succ_self _

/-- Reads a name, a call or a group. -/
def primary (eof : Span) (ts : List Lexeme) : Except ParseError (Parsed Expr ts.length) :=
  match ts with
  | ⟨.sign .lparen, s⟩ :: r => do
      let inner ← read eof r
      let close ← sign .rparen eof inner.rest
      return ((inner.before close).map fun s' => inner.value.withSpan (s.merge s')).behind 1
  | ⟨.ident n, s⟩ :: ⟨.sign .lparen, _⟩ :: ⟨.sign .rparen, s'⟩ :: r =>
      return (Parsed.leaving (.call ⟨n, s⟩ (s.merge s')) r).behind 2
  | ⟨.ident n, s⟩ :: r => return .leaving (.field ⟨n, s⟩ s) r
  | l :: _ => .error (.unexpectedToken .expression l.token l.span)
  | [] => .error (.unexpectedEnd .expression eof)
termination_by 4 * ts.length
decreasing_by simp only [List.length_cons]; omega

end

/-- Reads one or more expressions with commas between them. -/
def readList (eof : Span) (ts : List Lexeme) :
    Except ParseError (Parsed (List Expr) ts.length) := do
  let first ← read eof ts
  match sign? .comma first.rest with
  | some comma => do
      let more ← readList eof comma.rest
      return ((first.before comma).before more).map (first.value :: ·)
  | none => return first.map fun e => [e]
termination_by ts.length
decreasing_by exact (first.before comma).rest_lt

end Expr

end MetaAttack
