import MetaAttack.Decimal
import MetaAttack.Spec.Parsed
import MetaAttack.Spec.Ttc

/-!
# Reading time-to-compromise expressions

From loose to tight: `+` and `-`, then `*` and `/`, both left-associative, then `^`, which is
right-associative. A fraction is part of a number only where digits, dot and digits touch. Only the
parameters of a distribution may be negative.
-/

namespace MetaAttack

namespace TtcOp

/-- The operator of a sum that a token stands for. -/
def additive? : Token → Option TtcOp
  | .sign .plus => some add
  | .sign .minus => some sub
  | _ => none

/-- The operator of a product that a token stands for. -/
def multiplicative? : Token → Option TtcOp
  | .sign .star => some mul
  | .sign .slash => some div
  | _ => none

end TtcOp

/-- The value of a numeral at the span `s`. -/
def numeral (whole : String) (fraction : Option String) (s : Span) :
    Except ParseError (Float × Span) :=
  match Decimal.value? whole fraction with
  | some v => .ok (v, s)
  | none => .error (.invalidNumber (Decimal.text whole fraction) s)

/-- Reads a number without a sign. -/
def unsigned (eof : Span) (ts : List Lexeme) :
    Except ParseError (Parsed (Float × Span) ts.length) :=
  match ts with
  | ⟨.integer w, s⟩ :: ⟨.sign .dot, d⟩ :: ⟨.integer f, s'⟩ :: r =>
      if d.start = s.stop ∧ s'.start = d.stop then do
        let v ← numeral w (some f) (s.merge s')
        return (Parsed.leaving v r).behind 2
      else do
        let v ← numeral w none s
        return .leaving v (⟨.sign .dot, d⟩ :: ⟨.integer f, s'⟩ :: r)
  | ⟨.integer w, s⟩ :: r => do
      let v ← numeral w none s
      return .leaving v r
  | l :: _ => .error (.unexpectedToken .number l.token l.span)
  | [] => .error (.unexpectedEnd .number eof)

/-- Reads a number with an optional minus in front. -/
def signed (eof : Span) (ts : List Lexeme) : Except ParseError (Parsed Float ts.length) :=
  match ts with
  | ⟨.sign .minus, _⟩ :: r => do
      let n ← unsigned eof r
      return (n.map fun v => -v.1).behind 1
  | ts => do
      let n ← unsigned eof ts
      return n.map Prod.fst

/-- Reads the parameters of a distribution, if a parenthesis follows its name. -/
def parameters (eof : Span) (name : Ident) (ts : List Lexeme) :
    Except ParseError (Parsed Ttc (ts.length + 1)) :=
  match ts with
  | ⟨.sign .lparen, _⟩ :: r => do
      let ps ← commaSeparated signed .rparen eof r
      let close ← sign .rparen eof ps.rest
      return ((ps.before close).map fun s =>
        .distribution name ps.value (name.span.merge s)).behind 1
  | ts => return .leaving (.distribution name [] name.span) ts

namespace Ttc

mutual

/-- Reads an expression. -/
def read (eof : Span) (ts : List Lexeme) : Except ParseError (Parsed Ttc ts.length) := do
  let first ← product eof ts
  let all ← addends eof first.value first.rest
  return first.beforeAny all
termination_by 4 * ts.length + 3
decreasing_by
  · exact Nat.lt_succ_self _
  · have := first.rest_lt
    omega

/-- Reads `+` and `-` with their right operands and applies them, in turn, to `left`. -/
def addends (eof : Span) (left : Ttc) (ts : List Lexeme) :
    Except ParseError (Parsed Ttc (ts.length + 1)) :=
  match ts with
  | [] => return .leaving left []
  | l :: r =>
      match TtcOp.additive? l.token with
      | some op => do
          let right ← product eof r
          let all ← addends eof (combine op left right.value) right.rest
          return (right.beforeAny all).behind 2
      | none => return .leaving left (l :: r)
termination_by 4 * ts.length + 3
decreasing_by
  · simp only [List.length_cons]; omega
  · have := right.rest_lt
    simp only [List.length_cons]; omega

/-- Reads factors with `*` and `/` between them. -/
def product (eof : Span) (ts : List Lexeme) : Except ParseError (Parsed Ttc ts.length) := do
  let first ← power eof ts
  let all ← factors eof first.value first.rest
  return first.beforeAny all
termination_by 4 * ts.length + 2
decreasing_by
  · exact Nat.lt_succ_self _
  · have := first.rest_lt
    omega

/-- Reads `*` and `/` with their right operands and applies them, in turn, to `left`. -/
def factors (eof : Span) (left : Ttc) (ts : List Lexeme) :
    Except ParseError (Parsed Ttc (ts.length + 1)) :=
  match ts with
  | [] => return .leaving left []
  | l :: r =>
      match TtcOp.multiplicative? l.token with
      | some op => do
          let right ← power eof r
          let all ← factors eof (combine op left right.value) right.rest
          return (right.beforeAny all).behind 2
      | none => return .leaving left (l :: r)
termination_by 4 * ts.length + 3
decreasing_by
  · simp only [List.length_cons]; omega
  · have := right.rest_lt
    simp only [List.length_cons]; omega

/-- Reads an atom with an optional exponent. -/
def power (eof : Span) (ts : List Lexeme) : Except ParseError (Parsed Ttc ts.length) := do
  let base ← atom eof ts
  match sign? .caret base.rest with
  | some caret => do
      let exponent ← power eof caret.rest
      return ((base.before caret).before exponent).map (combine .pow base.value)
  | none => return base
termination_by 4 * ts.length + 1
decreasing_by
  · exact Nat.lt_succ_self _
  · have := (base.before caret).rest_lt
    rw [Parsed.before_rest] at this
    omega

/-- Reads a number, a distribution or a group. -/
def atom (eof : Span) (ts : List Lexeme) : Except ParseError (Parsed Ttc ts.length) :=
  match ts with
  | ⟨.sign .lparen, s⟩ :: r => do
      let inner ← read eof r
      let close ← sign .rparen eof inner.rest
      return ((inner.before close).map fun s' => inner.value.withSpan (s.merge s')).behind 1
  | ⟨.integer w, s⟩ :: r => do
      let n ← unsigned eof (⟨.integer w, s⟩ :: r)
      return n.map fun v => number v.1 v.2
  | ⟨.ident n, s⟩ :: r => parameters eof ⟨n, s⟩ r
  | l :: _ => .error (.unexpectedToken .ttcAtom l.token l.span)
  | [] => .error (.unexpectedEnd .ttcExpression eof)
termination_by 4 * ts.length
decreasing_by simp only [List.length_cons]; omega

end

end Ttc

end MetaAttack
