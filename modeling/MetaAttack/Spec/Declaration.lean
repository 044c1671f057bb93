import MetaAttack.Spec.Step

/-!
# Specifications

A specification is a sequence of items: declarations, and includes of other files. Includes take
effect where they stand, so the order of the items is kept.
-/

namespace MetaAttack

/-- `let name = expr`. -/
structure Variable where
  name : Ident
  expr : Expr
  span : Span
deriving DecidableEq, Repr

/-- An asset as declared in a category. -/
structure Asset where
  isAbstract : Bool
  name : Ident
  parent : Option Ident
  remarks : List Remark
  steps : List AttackStep
  bindings : List Variable
  span : Span

/-- `category Name { ... }`. -/
structure Category where
  name : Ident
  remarks : List Remark
  assets : List Asset
  span : Span

/-- A bound on the number of assets at one end of an association. -/
inductive Bound
  | zero
  | one
  | many
deriving DecidableEq, Repr

def Bound.text : Bound → String
  | zero => "0"
  | one => "1"
  | many => "*"

/-- How many assets may stand at one end of an association. -/
structure Multiplicity where
  min : Bound
  max : Bound
deriving DecidableEq, Repr

/-- Equal bounds are written once. -/
def Multiplicity.text (m : Multiplicity) : String :=
  if m.min = m.max then m.min.text else m.min.text ++ ".." ++ m.max.text

/-- `Left [leftField] m <-- Name --> m [rightField] Right`. It gives `Left` the field `rightField`
of type `Right`, and `Right` the field `leftField` of type `Left`. -/
structure Association where
  leftAsset : Ident
  leftField : Ident
  leftMult : Multiplicity
  name : Ident
  rightMult : Multiplicity
  rightField : Ident
  rightAsset : Ident
  remarks : List Remark
  span : Span
deriving DecidableEq, Repr

/-- `#key: "value"`. -/
structure Define where
  key : Ident
  value : String
  span : Span
deriving DecidableEq, Repr

/-- `include "path"`. -/
structure Include where
  path : String
  span : Span
deriving DecidableEq, Repr

/-- An item that declares something. -/
inductive Declaration
  | define (define : Define)
  | category (category : Category)
  | associations (associations : List Association)

/-- An item at the top level of a specification. -/
inductive Item
  | declaration (declaration : Declaration)
  | inclusion (inclusion : Include)

/-- The items of one source, in order. -/
structure Spec where
  items : List Item

namespace Spec

def isEmpty (s : Spec) : Bool := s.items.isEmpty

def defines (s : Spec) : List Define :=
  s.items.filterMap fun
    | .declaration (.define d) => some d
    | _ => none

def includes (s : Spec) : List Include :=
  s.items.filterMap fun
    | .inclusion i => some i
    | _ => none

def categories (s : Spec) : List Category :=
  s.items.filterMap fun
    | .declaration (.category c) => some c
    | _ => none

/-- The associations of every block, in one list. -/
def associations (s : Spec) : List Association :=
  s.items.flatMap fun
    | .declaration (.associations as) => as
    | _ => []

end Spec

end MetaAttack
