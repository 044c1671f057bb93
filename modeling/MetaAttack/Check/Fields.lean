import MetaAttack.Diagnostic.SemanticError
import MetaAttack.Registry.Ancestry

/-!
# Fields

Each end of an association becomes a field of the asset at the other end. A field may have neither
the name of a step of its asset nor that of another field of the asset or of an ancestor.
-/

namespace MetaAttack

/-- A field with the asset that it belongs to. -/
structure OwnedField where
  owner : String
  field : FieldEntry
deriving DecidableEq, Repr

namespace AssociationEntry

/-- The two ends: the field of the left asset, then that of the right one. -/
def ends (a : AssociationEntry) : List OwnedField :=
  [⟨a.left.name, a.rightField, a.right.name, a.rightMult, a.name, a.span⟩,
    ⟨a.right.name, a.leftField, a.left.name, a.leftMult, a.name, a.span⟩]

/-- The references to assets that are not declared. -/
def undefinedEnds (R : Registry) (a : AssociationEntry) : List SemanticError :=
  [a.left, a.right].filterMap fun i =>
    if R.hasAsset i.name then none else some (.undefinedAsset i.name i.span)

end AssociationEntry

namespace Registry

/-- Adds a field to its asset, or tells what holds its name. -/
def placeField (R : Registry) (f : OwnedField) : Registry × List SemanticError :=
  match R.asset? f.owner with
  | none => (R, [])
  | some a =>
      match a.steps.find? f.field.name with
      | some s => (R, [.fieldDefinedAsStep f.owner f.field.name s.span.line f.field.span])
      | none =>
          match a.fields.find? f.field.name with
          | some prior => (R, [.duplicateField f.owner f.field.name prior.span.line f.field.span])
          | none => (R.modifyAsset f.owner (·.addField f.field) fun _ => rfl, [])

/-- Adds fields in order. -/
def placeFields (R : Registry) : List OwnedField → Registry × List SemanticError
  | [] => (R, [])
  | f :: fs =>
      let (R, es) := R.placeField f
      let (R, es') := R.placeFields fs
      (R, es ++ es')

/-- Adds the fields of associations in order; an association with an end that is not declared has
none. -/
def placeAssociations (R : Registry) : List AssociationEntry → Registry × List SemanticError
  | [] => (R, [])
  | a :: as =>
      let (R, es) :=
        match a.undefinedEnds R with
        | [] => R.placeFields a.ends
        | es => (R, es)
      let (R, es') := R.placeAssociations as
      (R, es ++ es')

/-- The registry with the fields of all its associations, and what stood in their way. -/
def withFields (R : Registry) : Registry × List SemanticError := R.placeAssociations R.associations

/-- The assets whose chains have a root. -/
def rooted (R : Registry) : List AssetEntry :=
  R.assets.entries.filter fun a => !R.isBroken a.name

/-- Fields of names that an ancestor declares as well. -/
def inheritedFieldErrors (R : Registry) : List SemanticError :=
  R.rooted.flatMap fun a =>
    let above := R.strictAncestors a.name
    a.fields.entries.filterMap fun f =>
      (above.findSome? fun b => b.fields.find? f.name).map fun prior =>
        .duplicateField a.name f.name prior.span.line f.span

/-- Variables of names that an ancestor declares as well. -/
def inheritedVariableErrors (R : Registry) : List SemanticError :=
  R.rooted.flatMap fun a =>
    let above := R.strictAncestors a.name
    a.bindings.entries.filterMap fun v =>
      (above.findSome? fun b => b.bindings.find? v.name).map fun prior =>
        .duplicateVariable v.name prior.span.line v.span

end Registry

end MetaAttack
