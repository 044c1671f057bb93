import Mathlib.Data.List.Chain
import MetaAttack.Proofs.Loops

/-!
# Subtypes

The walk upward passes every asset that its start descends from, and each of them once, also where
the chain runs into a loop or comes to a parent that is not declared. So subtyping is reflexive on
declared assets and transitive in every registry. It is an order unless assets extend each other;
an asset that only extends itself leaves it one.
-/

namespace MetaAttack

open Relation

namespace Registry

variable {R : Registry} {n m k : String} {a b : AssetEntry}

/-! ### The walk upward -/

/-- The parent of an asset, where it is declared. -/
theorem parent?_eq_some_iff :
    R.parent? n = some b ↔ R.schema.Extends n b.name ∧ R.asset? b.name = some b := by
  simp only [parent?, Option.bind_eq_bind, Option.bind_eq_some_iff]
  constructor
  · rintro ⟨a, ha, p, hp, hb⟩
    rw [name_of_asset? hb]
    exact ⟨⟨schema_parent_of_some ha hp, b, hb⟩, hb⟩
  · rintro ⟨⟨⟨a, ha, p, hp, same⟩, _⟩, hb⟩
    exact ⟨a, ha, p, hp, same ▸ hb⟩

/-- Every declared asset is its own first ancestor. -/
theorem ancestors_eq_nil_iff : R.ancestors n = [] ↔ R.asset? n = none := by
  rw [ancestors_eq]
  constructor
  · intro h
    by_contra known
    obtain ⟨a, ha⟩ := Option.ne_none_iff_exists'.mp known
    rw [climb_of_asset List.not_mem_nil ha] at h
    cases h
  · exact fun h => climb_of_passed (.inr h)

theorem head?_ancestors (ha : R.asset? n = some a) : (R.ancestors n).head? = some a := by
  rw [ancestors_eq, climb_of_asset List.not_mem_nil ha, List.head?_cons]

/-- Each one on the way up is the parent of the one before it. -/
theorem isChain_ancestors (R : Registry) (n : String) :
    (R.ancestors n).IsChain fun a b => R.parent? a.name = some b := by
  have names := R.isChain_climb [] n
  rw [← ancestors_eq, List.isChain_map] at names
  exact names.imp_of_mem_imp fun _ b _ hb edge =>
    parent?_eq_some_iff.mpr ⟨edge, asset?_of_mem_ancestors hb⟩

/-- Nobody is passed twice, also on a loop. -/
theorem nodup_ancestors (R : Registry) (n : String) :
    ((R.ancestors n).map AssetEntry.name).Nodup := by
  rw [ancestors_eq]
  exact R.nodup_climb [] n

/-- The way up is the closure of having a parent. -/
theorem mem_ancestors_iff :
    b ∈ R.ancestors n ↔ R.asset? b.name = some b ∧ R.schema.Descends n b.name := by
  constructor
  · intro h
    exact ⟨asset?_of_mem_ancestors h, (mem_ancestors_names_iff.mp (List.mem_map_of_mem h)).1⟩
  · rintro ⟨hb, path⟩
    obtain ⟨c, hc, same⟩ := List.mem_map.mp (mem_ancestors_names_iff.mpr ⟨path, b, hb⟩)
    have hc' := asset?_of_mem_ancestors hc
    rw [same, hb] at hc'
    exact Option.some.inj hc' ▸ hc

theorem length_ancestors_le (R : Registry) (n : String) :
    (R.ancestors n).length ≤ R.assets.size :=
  (List.subperm_of_subset (.of_map _ (R.nodup_ancestors n)) fun _ h =>
    mem_of_asset? (asset?_of_mem_ancestors h)).length_le

/-! ### The order -/

theorem isSubtype_refl (known : R.schema.asset n) : R.isSubtype n n = true :=
  isSubtype_iff.mpr ⟨.refl, known⟩

/-- What is above an ancestor is above the asset. -/
theorem isSubtype_trans (h : R.isSubtype n m = true) (h' : R.isSubtype m k = true) :
    R.isSubtype n k = true := by
  obtain ⟨path, _⟩ := isSubtype_iff.mp h
  obtain ⟨path', known⟩ := isSubtype_iff.mp h'
  exact isSubtype_iff.mpr ⟨path.trans path', known⟩

/-- Assets that are subtypes of each other are on one loop. -/
theorem inherits_of_isSubtype (h : R.isSubtype n m = true) (h' : R.isSubtype m n = true)
    (ne : n ≠ m) : R.schema.Inherits n n := by
  have path := (isSubtype_iff.mp h).1
  exact (path.eq_or_inherits.resolve_left ne).trans_left (isSubtype_iff.mp h').1

end Registry

namespace SemanticError

/-- The report is of an asset that names itself as its parent. -/
def IsSelfExtension : SemanticError → Prop
  | .extendsLoop name chain _ => chain = [name, name]
  | _ => False

end SemanticError

namespace Registry

variable {R : Registry} {n m : String}

/-- The only member of a loop without other members. -/
theorem loop_eq_singleton {ms : List String} (loop : R.schema.LoopFrom n ms)
    (alone : ∀ m ∈ ms, m = n) : ms = [n] := by
  obtain ⟨rest, rfl⟩ := List.head?_eq_some_iff.mp loop.start
  cases rest with
  | nil => rfl
  | cons m rest =>
      have same : m = n := alone m (by simp)
      have distinct := loop.distinct
      simp [same] at distinct

/-- Subtyping is an order exactly if the only loops are those of single assets. -/
theorem isSubtype_antisymm_iff :
    (∀ n m, R.isSubtype n m = true → R.isSubtype m n = true → n = m) ↔
      ∀ e ∈ R.loopErrors, e.IsSelfExtension := by
  constructor
  · intro antisymm e he
    obtain ⟨a, ha, ms, loop, -, rfl⟩ := R.findings_loopErrors.exists_of_mem he
    have known : R.schema.asset a.name := ⟨a, asset?_name_of_mem ha⟩
    have alone : ∀ m ∈ ms, m = a.name := by
      intro m hm
      have path := (loop.mem_iff R.schema_coherent).mp hm
      have back := loop.inherits.back R.schema_coherent path
      exact antisymm m a.name (isSubtype_iff.mpr ⟨back, known⟩)
        (isSubtype_iff.mpr ⟨path, path.asset known⟩)
    rw [loop_eq_singleton loop alone]
    rfl
  · intro selves n m h h'
    by_contra ne
    have loop := inherits_of_isSubtype h h' ne
    obtain ⟨a, ha, path, ms, around, first⟩ := exists_declaredFirst loop
    obtain ⟨e, he, ms', around', -, rfl⟩ :=
      R.findings_loopErrors.exists_of_found ha ⟨ms, around, first, rfl⟩
    have chain : ms' ++ [a.name] = [a.name] ++ [a.name] := selves _ he
    have single : ms' = [a.name] := List.append_cancel_right chain
    -- Both assets are on the loop that is reported, which has one member.
    have only : ∀ k, R.schema.Descends a.name k → k = a.name := by
      intro k hk
      have member := (around'.mem_iff R.schema_coherent).mpr hk
      rw [single] at member
      exact List.mem_singleton.mp member
    have back := loop.back R.schema_coherent path
    exact ne ((only n back).trans (only m (back.trans (isSubtype_iff.mp h).1)).symm)

/-! ### Everything together -/

/-- What the walk upward from a name passes. -/
structure WalksUp (R : Registry) (n : String) (as : List AssetEntry) : Prop where
  empty : as = [] ↔ R.asset? n = none
  start : ∀ a, R.asset? n = some a → as.head? = some a
  /-- Behind each asset comes the declared one that it extends. -/
  onward : as.IsChain fun a b => R.parent? a.name = some b
  distinct : (as.map AssetEntry.name).Nodup
  /-- Whatever is declared and can be reached over declared parents is passed, and nothing else. -/
  mem : ∀ b, b ∈ as ↔ R.asset? b.name = some b ∧ R.schema.Descends n b.name
  /-- The walk ends after at most as many assets as there are. -/
  bounded : as.length ≤ R.assets.size

/-- The walk upward is the closure under parents, and subtyping an order but for loops. -/
structure Ordered (R : Registry) : Prop where
  walk : ∀ n, R.WalksUp n (R.ancestors n)
  refl : ∀ n, R.hasAsset n = true → R.isSubtype n n = true
  trans : ∀ n m k, R.isSubtype n m = true → R.isSubtype m k = true → R.isSubtype n k = true
  /-- What keeps subtyping from being an order are loops of more than one asset. -/
  antisymm : (∀ n m, R.isSubtype n m = true → R.isSubtype m n = true → n = m) ↔
    ∀ e ∈ R.loopErrors, e.IsSelfExtension

/-- Everything that is known of subtypes together. -/
theorem subtypes_ordered (R : Registry) : R.Ordered where
  walk := by
    intro n
    constructor
    case empty => exact ancestors_eq_nil_iff
    case start => exact fun a ha => head?_ancestors ha
    case onward => exact R.isChain_ancestors n
    case distinct => exact R.nodup_ancestors n
    case mem => exact fun b => mem_ancestors_iff
    case bounded => exact R.length_ancestors_le n
  refl := fun n known => isSubtype_refl (hasAsset_iff.mp known)
  trans := fun n m k => isSubtype_trans
  antisymm := isSubtype_antisymm_iff

end Registry

end MetaAttack
