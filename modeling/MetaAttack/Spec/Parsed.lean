import MetaAttack.Spec.Ident
import MetaAttack.Spec.ParseError

/-!
# Reading lexemes

A reader takes a value off the front of a list of lexemes. Its result carries the proof that fewer
lexemes are left than a stated bound, so readers that call each other end. The span `eof` of every
reader is the end of the source, where an input that stops too early is reported.
-/

namespace MetaAttack

/-- A value that was read, with the lexemes behind it, of which there are fewer than `bound`. -/
structure Parsed (α : Type) (bound : Nat) where
  value : α
  rest : List Lexeme
  rest_lt : rest.length < bound

namespace Parsed

variable {α β : Type} {n : Nat}

/-- A value in front of lexemes that are all left. -/
def leaving (value : α) (ts : List Lexeme) : Parsed α (ts.length + 1) :=
  ⟨value, ts, Nat.lt_succ_self _⟩

/-- The same result where `k` more lexemes were read in front of it. -/
def behind (k : Nat) (p : Parsed α n) : Parsed α (n + k) :=
  ⟨p.value, p.rest, Nat.lt_of_lt_of_le p.rest_lt (Nat.le_add_right n k)⟩

/-- The same lexemes left, with another value. -/
def map (f : α → β) (p : Parsed α n) : Parsed β n := ⟨f p.value, p.rest, p.rest_lt⟩

/-- What was read behind `p`. -/
def before (p : Parsed α n) (q : Parsed β p.rest.length) : Parsed β n :=
  ⟨q.value, q.rest, Nat.lt_trans q.rest_lt p.rest_lt⟩

/-- What was read behind `p`, where that can be nothing at all. -/
def beforeAny (p : Parsed α n) (q : Parsed β (p.rest.length + 1)) : Parsed β n :=
  ⟨q.value, q.rest, Nat.lt_of_le_of_lt (Nat.le_of_lt_succ q.rest_lt) p.rest_lt⟩

@[simp] theorem leaving_value (a : α) (ts : List Lexeme) : (leaving a ts).value = a := rfl

@[simp] theorem leaving_rest (a : α) (ts : List Lexeme) : (leaving a ts).rest = ts := rfl

@[simp] theorem behind_value (k : Nat) (p : Parsed α n) : (p.behind k).value = p.value := rfl

@[simp] theorem behind_rest (k : Nat) (p : Parsed α n) : (p.behind k).rest = p.rest := rfl

@[simp] theorem map_value (f : α → β) (p : Parsed α n) : (p.map f).value = f p.value := rfl

@[simp] theorem map_rest (f : α → β) (p : Parsed α n) : (p.map f).rest = p.rest := rfl

@[simp] theorem before_value (p : Parsed α n) (q : Parsed β p.rest.length) :
    (p.before q).value = q.value := rfl

@[simp] theorem before_rest (p : Parsed α n) (q : Parsed β p.rest.length) :
    (p.before q).rest = q.rest := rfl

@[simp] theorem beforeAny_value (p : Parsed α n) (q : Parsed β (p.rest.length + 1)) :
    (p.beforeAny q).value = q.value := rfl

@[simp] theorem beforeAny_rest (p : Parsed α n) (q : Parsed β (p.rest.length + 1)) :
    (p.beforeAny q).rest = q.rest := rfl

end Parsed

/-- Reads one lexeme with a token that `f` accepts, and keeps its span. -/
def accept {α : Type} (f : Token → Option α) (refuse : Lexeme → ParseError) (expected : Expected)
    (eof : Span) : (ts : List Lexeme) → Except ParseError (Parsed (α × Span) ts.length)
  | [] => .error (.unexpectedEnd expected eof)
  | l :: r =>
      match f l.token with
      | some a => .ok (.leaving (a, l.span) r)
      | none => .error (refuse l)

theorem accept_eq_ok_iff {α : Type} {f : Token → Option α} {refuse : Lexeme → ParseError}
    {expected : Expected} {eof : Span} {ts : List Lexeme} {p : Parsed (α × Span) ts.length} :
    accept f refuse expected eof ts = .ok p ↔
      ∃ l, ts = l :: p.rest ∧ f l.token = some p.value.1 ∧ l.span = p.value.2 := by
  cases ts with
  | nil => simp [accept]
  | cons l r =>
      obtain ⟨⟨a, s⟩, rest, h⟩ := p
      simp only [accept, Parsed.leaving]
      split <;> grind

/-- Reads exactly the token `t`. -/
def exactly (t : Token) (eof : Span) (ts : List Lexeme) :
    Except ParseError (Parsed Span ts.length) :=
  (accept (fun u => if u = t then some () else none)
    (fun l => .unexpectedToken (.token t) l.token l.span) (.token t) eof ts).map
    fun p => p.map Prod.snd

/-- Reads the sign `s`. -/
def sign (s : Sign) := exactly (.sign s)

/-- Reads a name. -/
def ident (eof : Span) (ts : List Lexeme) : Except ParseError (Parsed Ident ts.length) :=
  (accept (fun | .ident n => some n | _ => none) (fun l => .expectedIdent l.token l.span)
    .ident eof ts).map fun p => p.map fun (name, span) => ⟨name, span⟩

/-- Reads a string literal. -/
def stringLiteral (eof : Span) (ts : List Lexeme) :
    Except ParseError (Parsed (String × Span) ts.length) :=
  accept (fun | .string v => some v | _ => none) (fun l => .expectedString l.token l.span)
    .string eof ts

/-- Reads the sign `s` if it is next. -/
def sign? (s : Sign) : (ts : List Lexeme) → Option (Parsed Span ts.length)
  | l :: r => if l.token = .sign s then some (.leaving l.span r) else none
  | [] => none

/-- Reads items with a comma between any two, up to `close`, which is left; a comma may also stand
behind the last item. -/
def commaSeparated {α : Type}
    (item : Span → (ts : List Lexeme) → Except ParseError (Parsed α ts.length)) (close : Sign)
    (eof : Span) (ts : List Lexeme) : Except ParseError (Parsed (List α) (ts.length + 1)) :=
  if (sign? close ts).isSome then .ok (.leaving [] ts)
  else do
    let x ← item eof ts
    match sign? .comma x.rest with
    | some comma => do
        let xs ← commaSeparated item close eof comma.rest
        return (((x.before comma).beforeAny xs).map (x.value :: ·)).behind 1
    | none => return (x.map fun a => [a]).behind 1
termination_by ts.length
decreasing_by exact (x.before comma).rest_lt

end MetaAttack
