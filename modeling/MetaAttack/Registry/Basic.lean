import MetaAttack.Registry.Entry

/-!
# The registry

Everything that a specification declares, in declaration order. Whatever takes a name first keeps
it.
-/

namespace MetaAttack

/-- All declarations of a specification. -/
structure Registry where
  defines : Table DefineEntry
  categories : Table CategoryEntry
  assets : Table AssetEntry
  associations : List AssociationEntry
  remarks : List RemarkBlock

namespace Registry

def empty : Registry := ⟨.empty, .empty, .empty, [], []⟩

instance : Inhabited Registry := ⟨empty⟩

/-- The asset of a name. -/
def asset? (R : Registry) (name : String) : Option AssetEntry := R.assets.find? name

def hasAsset (R : Registry) (name : String) : Bool := R.assets.contains name

def addDefine (R : Registry) (d : DefineEntry) : Registry :=
  { R with defines := R.defines.insert d }

/-- A name that is taken keeps its category, which is how categories are merged. -/
def addCategory (R : Registry) (c : CategoryEntry) : Registry :=
  { R with categories := R.categories.insert c }

def addAsset (R : Registry) (a : AssetEntry) : Registry := { R with assets := R.assets.insert a }

def addAssociation (R : Registry) (a : AssociationEntry) : Registry :=
  { R with associations := R.associations ++ [a] }

/-- Keeps the remarks of a declaration, if it has any. -/
def addRemarks (R : Registry) (b : RemarkBlock) : Registry :=
  if b.entries.isEmpty then R else { R with remarks := R.remarks ++ [b] }

/-- Lists an asset under a category. -/
def enlist (R : Registry) (category asset : String) : Registry :=
  { R with
    categories := R.categories.modify category
      (fun c => { c with assets := c.assets ++ [asset] }) fun _ => rfl }

/-- Changes the asset under a name by a function that keeps names. -/
def modifyAsset (R : Registry) (name : String) (f : AssetEntry → AssetEntry)
    (hf : ∀ a, (f a).name = a.name) : Registry :=
  { R with assets := R.assets.modify name f hf }

end Registry

end MetaAttack
