import MetaAttack.Registry.Basic

/-!
# Ancestry

An asset has at most one parent, so its ancestors are one chain. A specification may still make a
loop; the walk upward visits each asset once and stops where the chain ends, where a parent is not
declared, or where it would come back.
-/

namespace MetaAttack

namespace Registry

/-- The assets of `pool` that do not have the name. -/
def without (pool : List AssetEntry) (name : String) : List AssetEntry :=
  pool.filter fun a => a.name ≠ name

theorem length_without_lt {pool : List AssetEntry} {name : String} {a : AssetEntry}
    (h : (pool.find? fun a => a.name = name) = some a) :
    (without pool name).length < pool.length := by
  refine List.length_filter_lt_length_iff_exists.2 ⟨a, List.mem_of_find?_eq_some h, ?_⟩
  simpa using List.find?_some h

/-- The walk upward from a name among the assets of `pool`, each of which it passes at most once. -/
def climb (pool : List AssetEntry) (name : String) : List AssetEntry :=
  match h : pool.find? fun a => a.name = name with
  | none => []
  | some a =>
      a :: match a.parent with
        | none => []
        | some p =>
            have := length_without_lt h
            climb (without pool name) p.name
termination_by pool.length

/-- An asset and its ancestors, the nearest first; nothing for a name without an asset. -/
def ancestors (R : Registry) (name : String) : List AssetEntry := climb R.assets.entries name

/-- The ancestors of an asset without the asset itself. -/
def strictAncestors (R : Registry) (name : String) : List AssetEntry := (R.ancestors name).tail

/-- The declared asset that an asset extends. -/
def parent? (R : Registry) (name : String) : Option AssetEntry := do
  let a ← R.asset? name
  let p ← a.parent
  R.asset? p.name

/-- Whether the first asset is the second one or one of its ancestors. -/
def isAncestor (R : Registry) (ancestor name : String) : Bool :=
  (R.ancestors name).any fun a => a.name = ancestor

/-- Whether asset `a` is `b` or descends from it. -/
def isSubtype (R : Registry) (a b : String) : Bool := R.isAncestor b a

/-- The asset on both chains that is nearest to the second name. -/
def commonAncestor? (R : Registry) (a b : String) : Option AssetEntry :=
  let chain := (R.ancestors a).map AssetEntry.name
  (R.ancestors b).find? fun c => chain.contains c.name

/-- The type of a set whose elements come from either of two types. -/
def join? (R : Registry) (a b : String) : Option String :=
  (R.commonAncestor? a b).map AssetEntry.name

/-- Whether two assets have an ancestor in common. -/
def hasCommonAncestor (R : Registry) (a b : String) : Bool := (R.commonAncestor? a b).isSome

/-- The field that a name means on an asset: the nearest one. -/
def findField? (R : Registry) (asset name : String) : Option FieldEntry :=
  (R.ancestors asset).findSome? fun a => a.fields.find? name

/-- The variable that a name means on an asset, with the asset that declares it. -/
def findVariable? (R : Registry) (asset name : String) : Option (AssetEntry × VariableEntry) :=
  (R.ancestors asset).findSome? fun a => (a.bindings.find? name).map (a, ·)

/-- The attack step that a name means on an asset. -/
def findStep? (R : Registry) (asset name : String) : Option StepEntry :=
  (R.ancestors asset).findSome? fun a => a.steps.find? name

/-- The attack step of a name that an asset inherits. -/
def findInheritedStep? (R : Registry) (asset name : String) : Option StepEntry :=
  (R.strictAncestors asset).findSome? fun a => a.steps.find? name

/-- The abstract assets that no asset extends. -/
def neverExtended (R : Registry) : List AssetEntry :=
  R.assets.entries.filter fun a =>
    a.isAbstract && !R.assets.entries.any fun b => b.parent.any fun p => p.name = a.name

/-- The name that the chain of an asset goes on to where the walk upward stops: a parent that is not
declared or that the walk has passed. -/
def chainEnd? (R : Registry) (name : String) : Option String := do
  let last ← (R.ancestors name).getLast?
  last.parent.map Ident.name

/-- Whether the chain of an asset has no root. -/
def isBroken (R : Registry) (name : String) : Bool := (R.chainEnd? name).isSome

/-- The names of the assets without a root, in declaration order. -/
def broken (R : Registry) : List String :=
  (R.assets.entries.map AssetEntry.name).filter R.isBroken

/-- The loops of extensions that pass through these assets, but none of those `reported` before. A
loop is found at an asset whose chain comes back to it; its members are then passed over. -/
def loopsAmong (R : Registry) (reported : List String) :
    List AssetEntry → List (AssetEntry × List AssetEntry)
  | [] => []
  | a :: as =>
      if a.name ∈ reported then R.loopsAmong reported as
      else
        let path := R.ancestors a.name
        if R.chainEnd? a.name = some a.name then
          (a, path) :: R.loopsAmong (reported ++ path.map AssetEntry.name) as
        else R.loopsAmong reported as

/-- The loops of extensions, each as its members in the order of extension from the one at which it
is found. -/
def loops (R : Registry) : List (AssetEntry × List AssetEntry) := R.loopsAmong [] R.assets.entries

end Registry

end MetaAttack
