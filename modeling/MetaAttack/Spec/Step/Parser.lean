import MetaAttack.Spec.Expr.Parser
import MetaAttack.Spec.Step
import MetaAttack.Spec.Ttc.Parser

/-!
# Reading attack steps

The parts of a step stand in a fixed order: kind, name, tags, classification, time to compromise,
remarks, requires clause, reaches clause. All but the first two may be missing. `E` and `info` are
reserved only where they have a meaning, so both may also be names.
-/

namespace MetaAttack

/-- Reads remarks as long as a name with the word `info` behind it follows. -/
def Remark.readAll (eof : Span) (ts : List Lexeme) :
    Except ParseError (Parsed (List Remark) (ts.length + 1)) :=
  match ts with
  | ⟨.ident key, s⟩ :: ⟨.ident "info", _⟩ :: r => do
      let colon ← sign .colon eof r
      let value ← stringLiteral eof colon.rest
      let more ← readAll eof value.rest
      let remark := ⟨⟨key, s⟩, value.value.1, s.merge value.value.2⟩
      return (((colon.before value).beforeAny more).map (remark :: ·)).behind 3
  | ts => return .leaving [] ts
termination_by ts.length
decreasing_by exact Nat.lt_succ_of_lt (Nat.lt_succ_of_lt (colon.before value).rest_lt)

/-- Whether an attack step begins here. -/
def AttackStep.begins : List Lexeme → Bool
  | ⟨.sign .pipe, _⟩ :: _ | ⟨.sign .ampersand, _⟩ :: _ | ⟨.sign .hash, _⟩ :: _
  | ⟨.sign .bang, _⟩ :: _ | ⟨.ident "E", _⟩ :: _ => true
  | _ => false

/-- Reads the kind of a step. -/
def StepKind.read (eof : Span) (ts : List Lexeme) :
    Except ParseError (Parsed (StepKind × Span) ts.length) :=
  match ts with
  | ⟨.sign .pipe, s⟩ :: r => return .leaving (anyOf, s) r
  | ⟨.sign .ampersand, s⟩ :: r => return .leaving (allOf, s) r
  | ⟨.sign .hash, s⟩ :: r => return .leaving (defense, s) r
  | ⟨.ident "E", s⟩ :: r => return .leaving (existence, s) r
  | ⟨.sign .bang, s⟩ :: r => do
      let e ← exactly (.ident "E") eof r
      return (e.map fun s' => (absence, s.merge s')).behind 1
  | l :: _ => .error (.unexpectedToken .stepKind l.token l.span)
  | [] => .error (.unexpectedEnd .anyToken eof)

/-- Reads tags, each a name behind an `@`. -/
def readTags (eof : Span) (ts : List Lexeme) :
    Except ParseError (Parsed (List Ident) (ts.length + 1)) :=
  match ts with
  | ⟨.sign .atSign, _⟩ :: r => do
      let tag ← ident eof r
      let more ← readTags eof tag.rest
      return ((tag.beforeAny more).map (tag.value :: ·)).behind 2
  | ts => return .leaving [] ts
termination_by ts.length
decreasing_by exact Nat.lt_succ_of_lt tag.rest_lt

/-- Reads one letter of a classification. -/
def Cia.read (eof : Span) (ts : List Lexeme) : Except ParseError (Parsed Cia ts.length) := do
  let name ← ident eof ts
  match ofText? name.value.name with
  | some c => return name.map fun _ => c
  | none => .error (.invalidClassification name.value.name name.value.span)

/-- Reads a classification, if there is one. -/
def Classification.read? (eof : Span) (ts : List Lexeme) :
    Except ParseError (Parsed (Option Classification) (ts.length + 1)) :=
  match ts with
  | ⟨.sign .lbrace, s⟩ :: r => do
      let flags ← commaSeparated Cia.read .rbrace eof r
      let close ← sign .rbrace eof flags.rest
      return ((flags.before close).map fun s' => some ⟨flags.value, s.merge s'⟩).behind 1
  | ts => return .leaving none ts

/-- Reads a time to compromise between brackets, if there is one; empty brackets hold none. -/
def Ttc.read? (eof : Span) (ts : List Lexeme) :
    Except ParseError (Parsed (Option Ttc) (ts.length + 1)) :=
  match ts with
  | ⟨.sign .lbracket, _⟩ :: ⟨.sign .rbracket, _⟩ :: r => return (Parsed.leaving none r).behind 2
  | ⟨.sign .lbracket, _⟩ :: r => do
      let ttc ← read eof r
      let close ← sign .rbracket eof ttc.rest
      return ((ttc.before close).map fun _ => some ttc.value).behind 2
  | ts => return .leaving none ts

/-- Reads a requires clause, if there is one. -/
def Requires.read? (eof : Span) (ts : List Lexeme) :
    Except ParseError (Parsed (Option Requires) (ts.length + 1)) :=
  match ts with
  | ⟨.sign .requires, s⟩ :: r => do
      let exprs ← Expr.readList eof r
      return (exprs.map fun es => some ⟨es, s⟩).behind 2
  | ts => return .leaving none ts

/-- Reads a reaches clause, if there is one. -/
def Reaches.read? (eof : Span) (ts : List Lexeme) :
    Except ParseError (Parsed (Option Reaches) (ts.length + 1)) :=
  match ts with
  | ⟨.sign .reaches, s⟩ :: r => do
      let exprs ← Expr.readList eof r
      return (exprs.map fun es => some ⟨false, es, s⟩).behind 2
  | ⟨.sign .appends, s⟩ :: r => do
      let exprs ← Expr.readList eof r
      return (exprs.map fun es => some ⟨true, es, s⟩).behind 2
  | ts => return .leaving none ts

/-- Reads an attack step. -/
def AttackStep.read (eof : Span) (ts : List Lexeme) :
    Except ParseError (Parsed AttackStep ts.length) := do
  let kind ← StepKind.read eof ts
  let name ← ident eof kind.rest
  let tags ← readTags eof name.rest
  let cia ← Classification.read? eof tags.rest
  let ttc ← Ttc.read? eof cia.rest
  let remarks ← Remark.readAll eof ttc.rest
  let requires ← Requires.read? eof remarks.rest
  let reaches ← Reaches.read? eof requires.rest
  let clauses := requires.beforeAny reaches
  let details := tags.beforeAny (cia.beforeAny (ttc.beforeAny (remarks.beforeAny clauses)))
  return (kind.before (name.beforeAny details)).map fun _ =>
    { kind := kind.value.1
      name := name.value
      tags := tags.value
      cia := cia.value
      ttc := ttc.value
      remarks := remarks.value
      requires := requires.value
      reaches := reaches.value
      span := kind.value.2.merge name.value.span }

end MetaAttack
