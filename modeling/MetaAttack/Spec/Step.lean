import MetaAttack.Spec.Expr
import MetaAttack.Spec.Ttc

/-!
# Attack steps
-/

namespace MetaAttack

/-- What makes an attack step succeed. -/
inductive StepKind
  /-- Every step that leads to it. -/
  | allOf
  /-- Some step that leads to it. -/
  | anyOf
  /-- The existence of what it requires. -/
  | existence
  /-- The absence of what it requires. -/
  | absence
  /-- It is a defense: it holds unless it is attacked. -/
  | defense
deriving DecidableEq, Repr

namespace StepKind

def text : StepKind → String
  | allOf => "&"
  | anyOf => "|"
  | existence => "E"
  | absence => "!E"
  | defense => "#"

/-- Whether the step asks for the presence or the absence of assets. -/
def isExistence : StepKind → Bool
  | existence | absence => true
  | allOf | anyOf | defense => false

end StepKind

/-- A property that an attack can break: confidentiality, integrity or availability. -/
inductive Cia
  | confidentiality
  | integrity
  | availability
deriving DecidableEq, Repr

namespace Cia

def text : Cia → String
  | confidentiality => "C"
  | integrity => "I"
  | availability => "A"

/-- The property with this letter. -/
def ofText? : String → Option Cia
  | "C" => some confidentiality
  | "I" => some integrity
  | "A" => some availability
  | _ => none

end Cia

/-- `{C, I}`: the properties that a step breaks, in source order. -/
structure Classification where
  flags : List Cia
  span : Span
deriving DecidableEq, Repr

/-- `user info: "text"`: a remark on a declaration. -/
structure Remark where
  key : Ident
  value : String
  span : Span
deriving DecidableEq, Repr

/-- `<- e, e`: the assets that a step asks for. The span is that of the arrow. -/
structure Requires where
  exprs : List Expr
  span : Span
deriving DecidableEq, Repr

/-- `-> e, e` or, where `appends` holds, `+> e, e`: the steps that a step leads to. The span is that
of the arrow. -/
structure Reaches where
  appends : Bool
  exprs : List Expr
  span : Span
deriving DecidableEq, Repr

/-- An attack step as declared on an asset. -/
structure AttackStep where
  kind : StepKind
  name : Ident
  tags : List Ident
  cia : Option Classification
  ttc : Option Ttc
  remarks : List Remark
  requires : Option Requires
  reaches : Option Reaches
  span : Span

end MetaAttack
