import MetaAttack.Spec.Declaration
import MetaAttack.Spec.Step.Parser

/-!
# Reading specifications

`Spec.ofSource` reads a whole source. A declaration spans its first word up to its name; an
association spans its two assets.
-/

namespace MetaAttack

/-- Reads `let name = expr` behind the word `let`, which is at `start`. -/
def Variable.read (start : Span) (eof : Span) (ts : List Lexeme) :
    Except ParseError (Parsed Variable ts.length) := do
  let name ← ident eof ts
  let equals ← sign .equals eof name.rest
  let expr ← Expr.read eof equals.rest
  return (name.before (equals.before expr)).map fun e =>
    ⟨name.value, e, start.merge name.value.span⟩

/-- What may stand in an asset. -/
inductive Member
  | step (step : AttackStep)
  | binding (binding : Variable)

namespace Member

def toStep? : Member → Option AttackStep
  | step s => some s
  | binding _ => none

def toBinding? : Member → Option Variable
  | step _ => none
  | binding v => some v

/-- Reads members up to a closing brace, which is left. -/
def readAll (eof : Span) (ts : List Lexeme) :
    Except ParseError (Parsed (List Member) (ts.length + 1)) :=
  if (sign? .rbrace ts).isSome then return .leaving [] ts
  else if AttackStep.begins ts then do
    let s ← AttackStep.read eof ts
    let more ← readAll eof s.rest
    return ((s.beforeAny more).map (step s.value :: ·)).behind 1
  else
    match ts with
    | ⟨.keyword .binding, start⟩ :: r => do
        let v ← Variable.read start eof r
        let more ← readAll eof v.rest
        return ((v.beforeAny more).map (binding v.value :: ·)).behind 2
    | l :: _ => .error (.unexpectedToken .member l.token l.span)
    | [] => .error (.unexpectedEnd (.token (.sign .rbrace)) eof)
termination_by ts.length
decreasing_by
  · exact s.rest_lt
  · exact Nat.lt_succ_of_lt v.rest_lt

end Member

/-- Reads the name of a parent behind the word `extends`, if there is one. -/
def readParent? (eof : Span) (ts : List Lexeme) :
    Except ParseError (Parsed (Option Ident) (ts.length + 1)) :=
  match ts with
  | ⟨.keyword .extension, _⟩ :: r => do
      let name ← ident eof r
      return (name.map some).behind 2
  | ts => return .leaving none ts

namespace Asset

/-- Reads an asset from its name on; its first word is at `start`. -/
def readNamed (isAbstract : Bool) (start : Span) (eof : Span) (ts : List Lexeme) :
    Except ParseError (Parsed Asset ts.length) := do
  let name ← ident eof ts
  let parent ← readParent? eof name.rest
  let remarks ← Remark.readAll eof parent.rest
  let opening ← sign .lbrace eof remarks.rest
  let members ← Member.readAll eof opening.rest
  let close ← sign .rbrace eof members.rest
  let body := opening.beforeAny (members.before close)
  return (name.beforeAny (parent.beforeAny (remarks.before body))).map fun _ =>
    { isAbstract
      name := name.value
      parent := parent.value
      remarks := remarks.value
      steps := members.value.filterMap Member.toStep?
      bindings := members.value.filterMap Member.toBinding?
      span := start.merge name.value.span }

/-- Reads assets up to a closing brace, which is left. -/
def readAll (eof : Span) (ts : List Lexeme) :
    Except ParseError (Parsed (List Asset) (ts.length + 1)) :=
  match ts with
  | ⟨.keyword .abstraction, start⟩ :: r => do
      let word ← exactly (.keyword .asset) eof r
      let asset ← readNamed true start eof word.rest
      let more ← readAll eof asset.rest
      return (((word.before asset).beforeAny more).map (asset.value :: ·)).behind 2
  | ⟨.keyword .asset, start⟩ :: r => do
      let asset ← readNamed false start eof r
      let more ← readAll eof asset.rest
      return ((asset.beforeAny more).map (asset.value :: ·)).behind 2
  | ⟨.sign .rbrace, s⟩ :: r => return .leaving [] (⟨.sign .rbrace, s⟩ :: r)
  | l :: _ => .error (.unexpectedToken .asset l.token l.span)
  | [] => .error (.unexpectedEnd (.token (.sign .rbrace)) eof)
termination_by ts.length
decreasing_by
  · exact Nat.lt_succ_of_lt (word.before asset).rest_lt
  · exact Nat.lt_succ_of_lt asset.rest_lt

end Asset

/-- Reads a category behind the word `category`, which is at `start`. -/
def Category.read (start : Span) (eof : Span) (ts : List Lexeme) :
    Except ParseError (Parsed Category ts.length) := do
  let name ← ident eof ts
  let remarks ← Remark.readAll eof name.rest
  let opening ← sign .lbrace eof remarks.rest
  let assets ← Asset.readAll eof opening.rest
  let close ← sign .rbrace eof assets.rest
  let body := opening.beforeAny (assets.before close)
  return (name.beforeAny (remarks.before body)).map fun _ =>
    ⟨name.value, remarks.value, assets.value, start.merge name.value.span⟩

/-- The bound that a token stands for. -/
def Bound.ofToken? : Token → Option Bound
  | .sign .star => some many
  | .integer "0" => some zero
  | .integer "1" => some one
  | _ => none

/-- Reads one bound of a multiplicity. -/
def Bound.read (eof : Span) (ts : List Lexeme) : Except ParseError (Parsed Bound ts.length) :=
  (accept ofToken? (fun l => .invalidMultiplicity l.token l.span) .anyToken eof ts).map
    fun p => p.map Prod.fst

/-- Reads a multiplicity; a single bound counts twice. -/
def Multiplicity.read (eof : Span) (ts : List Lexeme) :
    Except ParseError (Parsed Multiplicity ts.length) := do
  let min ← Bound.read eof ts
  match sign? .dotDot min.rest with
  | some dots => do
      let max ← Bound.read eof dots.rest
      return ((min.before dots).before max).map fun b => ⟨min.value, b⟩
  | none => return min.map fun b => ⟨b, b⟩

/-- Reads the name of a field between brackets. -/
def readFieldName (eof : Span) (ts : List Lexeme) :
    Except ParseError (Parsed Ident ts.length) := do
  let opening ← sign .lbracket eof ts
  let name ← ident eof opening.rest
  let close ← sign .rbracket eof name.rest
  return (opening.before (name.before close)).map fun _ => name.value

namespace Association

/-- Reads an association. -/
def read (eof : Span) (ts : List Lexeme) : Except ParseError (Parsed Association ts.length) := do
  let leftAsset ← ident eof ts
  let leftField ← readFieldName eof leftAsset.rest
  let leftMult ← Multiplicity.read eof leftField.rest
  let leftArm ← sign .leftArm eof leftMult.rest
  let name ← ident eof leftArm.rest
  let rightArm ← sign .rightArm eof name.rest
  let rightMult ← Multiplicity.read eof rightArm.rest
  let rightField ← readFieldName eof rightMult.rest
  let rightAsset ← ident eof rightField.rest
  let remarks ← Remark.readAll eof rightAsset.rest
  let right := rightMult.before (rightField.before (rightAsset.beforeAny remarks))
  let link := leftArm.before (name.before (rightArm.before right))
  return (leftAsset.before (leftField.before (leftMult.before link))).map fun _ =>
    { leftAsset := leftAsset.value
      leftField := leftField.value
      leftMult := leftMult.value
      name := name.value
      rightMult := rightMult.value
      rightField := rightField.value
      rightAsset := rightAsset.value
      remarks := remarks.value
      span := leftAsset.value.span.merge rightAsset.value.span }

/-- Reads associations up to a closing brace, which is left. -/
def readAll (eof : Span) (ts : List Lexeme) :
    Except ParseError (Parsed (List Association) (ts.length + 1)) :=
  match ts with
  | ⟨.sign .rbrace, s⟩ :: r => return .leaving [] (⟨.sign .rbrace, s⟩ :: r)
  | [] => .error (.unexpectedEnd (.token (.sign .rbrace)) eof)
  | l :: r => do
      let a ← read eof (l :: r)
      let more ← readAll eof a.rest
      return ((a.beforeAny more).map (a.value :: ·)).behind 1
termination_by ts.length
decreasing_by exact a.rest_lt

end Association

namespace Item

/-- Reads one item. -/
def read (eof : Span) (ts : List Lexeme) : Except ParseError (Parsed Item ts.length) :=
  match ts with
  | ⟨.sign .hash, start⟩ :: r => do
      let key ← ident eof r
      let colon ← sign .colon eof key.rest
      let value ← stringLiteral eof colon.rest
      return ((key.before (colon.before value)).map fun v =>
        .declaration (.define ⟨key.value, v.1, start.merge v.2⟩)).behind 1
  | ⟨.keyword .inclusion, start⟩ :: r => do
      let path ← stringLiteral eof r
      return (path.map fun p => .inclusion ⟨p.1, start.merge p.2⟩).behind 1
  | ⟨.keyword .category, start⟩ :: r => do
      let c ← Category.read start eof r
      return (c.map fun c => .declaration (.category c)).behind 1
  | ⟨.keyword .associations, _⟩ :: r => do
      let opening ← sign .lbrace eof r
      let as ← Association.readAll eof opening.rest
      let close ← sign .rbrace eof as.rest
      return ((opening.beforeAny (as.before close)).map fun _ =>
        .declaration (.associations as.value)).behind 1
  | l :: _ => .error (.unexpectedToken .item l.token l.span)
  | [] => .error (.unexpectedEnd .anyToken eof)

/-- Reads items to the end. -/
def readAll (eof : Span) (ts : List Lexeme) : Except ParseError (List Item) :=
  if ts.isEmpty then return []
  else do
    let item ← read eof ts
    let more ← readAll eof item.rest
    return item.value :: more
termination_by ts.length
decreasing_by exact item.rest_lt

end Item

namespace Spec

/-- The end of a source: behind its last byte, on the line of its last lexeme. -/
def endOf (source : String) (ts : List Lexeme) : Span :=
  ⟨source.utf8ByteSize, source.utf8ByteSize, (ts.getLast?.map (·.span.line)).getD 1⟩

/-- The specification that a source holds. -/
def ofSource (source : String) : Except ParseError Spec :=
  match lexemes source with
  | .error e => .error (.invalidToken e.span)
  | .ok ts => (Item.readAll (endOf source ts) ts).map Spec.mk

end Spec

end MetaAttack
