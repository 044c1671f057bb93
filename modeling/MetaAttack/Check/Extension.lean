import MetaAttack.Diagnostic.SemanticError
import MetaAttack.Registry.Ancestry

/-!
# Extension

A parent has to be declared and no asset may extend itself, directly or over others. An abstract
asset that nothing extends is doubtful.
-/

namespace MetaAttack

namespace Registry

/-- The parents that are not declared. -/
def parentErrors (R : Registry) : List SemanticError :=
  R.assets.entries.filterMap fun a =>
    a.parent.bind fun p => if R.hasAsset p.name then none else some (.undefinedAsset p.name p.span)

/-- The loops of extensions, each reported once. -/
def loopErrors (R : Registry) : List SemanticError :=
  R.loops.map fun (a, chain) =>
    .extendsLoop a.name (chain.map AssetEntry.name ++ [a.name]) a.span

def extensionErrors (R : Registry) : List SemanticError := R.parentErrors ++ R.loopErrors

def abstractWarnings (R : Registry) : List SemanticWarning :=
  R.neverExtended.map fun a => .abstractNeverExtended a.name a.span

end Registry

end MetaAttack
