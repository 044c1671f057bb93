import MetaAttack.Diagnostic.SemanticError
import MetaAttack.Registry.Basic

/-!
# Declaring

Each declaration of a specification is entered into a registry in turn. A name that is taken is an
error and leaves the registry as it was; only categories of one name are merged.
-/

namespace MetaAttack

/-- A registry with the errors found while it was filled. -/
structure Declared where
  registry : Registry
  errors : List SemanticError

namespace Declared

def empty : Declared := ⟨.empty, []⟩

/-- Enters a define, unless its key is taken. -/
def define (d : Define) (s : Declared) : Declared :=
  match s.registry.defines.find? d.key.name with
  | some prior => { s with
      errors := s.errors ++ [.duplicateDefine d.key.name prior.span.line d.span] }
  | none => { s with registry := s.registry.addDefine ⟨d.key.name, d.value, d.span⟩ }

end Declared

/-- An asset being put together, with the repeated members it has and the remarks on it. -/
structure Draft where
  entry : AssetEntry
  errors : List SemanticError
  remarks : List RemarkBlock

namespace Draft

/-- Adds a step and its remarks, unless its name is taken. -/
def addStep (d : Draft) (s : AttackStep) : Draft :=
  match d.entry.steps.find? s.name.name with
  | some prior => { d with
      errors := d.errors ++
        [.duplicateStep d.entry.name s.name.name prior.span.line s.span] }
  | none => { d with
      entry := d.entry.addStep (.ofStep s)
      remarks := d.remarks ++ [⟨.step ⟨d.entry.name, s.name.name⟩, s.remarks⟩] }

/-- Adds a variable, unless its name is taken. -/
def addVariable (d : Draft) (v : Variable) : Draft :=
  match d.entry.bindings.find? v.name.name with
  | some prior => { d with
      errors := d.errors ++ [.duplicateVariable v.name.name prior.span.line v.span] }
  | none => { d with entry := d.entry.addVariable (.ofVariable v) }

/-- An asset of a category with all its members. -/
def ofAsset (category : String) (a : Asset) : Draft :=
  let bare := { AssetEntry.bare a.name.name category a.span with
    isAbstract := a.isAbstract, parent := a.parent }
  let withSteps := a.steps.foldl addStep ⟨bare, [], [⟨.asset a.name.name, a.remarks⟩]⟩
  a.bindings.foldl addVariable withSteps

end Draft

namespace Declared

/-- Enters an asset. One whose name is taken leaves no trace but the error. -/
def asset (category : String) (s : Declared) (a : Asset) : Declared :=
  match s.registry.asset? a.name.name with
  | some prior => { s with
      errors := s.errors ++ [.duplicateAsset a.name.name prior.span.line a.name.span] }
  | none =>
      let draft := Draft.ofAsset category a
      let registry := (s.registry.addAsset draft.entry).enlist category a.name.name
      ⟨draft.remarks.foldl Registry.addRemarks registry, s.errors ++ draft.errors⟩

/-- Enters a category with its assets; one of a name that is known goes on with that one. -/
def category (c : Category) (s : Declared) : Declared :=
  let registry := (s.registry.addCategory ⟨c.name.name, [], c.span⟩).addRemarks
    ⟨.category c.name.name, c.remarks⟩
  c.assets.foldl (asset c.name.name) { s with registry }

/-- Enters an association, which needs no name of its own. -/
def association (s : Declared) (a : Association) : Declared :=
  { s with
    registry := (s.registry.addRemarks ⟨.association a.name.name, a.remarks⟩).addAssociation
      (.ofAssociation a) }

/-- Enters a declaration. -/
def declare (s : Declared) : Declaration → Declared
  | .define d => s.define d
  | .category c => s.category c
  | .associations as => as.foldl association s

end Declared

end MetaAttack
