import MetaAttack.Proofs.Intake
import MetaAttack.Proofs.Results

/-!
# Categories

The categories of a registry divide its assets among themselves: each asset is listed once, by its
own category, and each list follows the order of declaration. Entering a declaration keeps this, a
rejected asset included, and the passes after that change neither the names nor the categories of
assets.

## Implementation notes

The invariant is a closed form for the lists, `Registry.Listed`; that they do not overlap follows
from it, since the names of assets and of categories are distinct.
-/

namespace MetaAttack

namespace Registry

variable {R : Registry}

/-- The names of the assets of a category, in the order of declaration. -/
def membersOf (R : Registry) (category : String) : List String :=
  (R.assets.entries.filter fun a => a.category = category).map AssetEntry.name

/-- The assets are of categories that are there, and each category lists its assets. -/
structure Listed (R : Registry) : Prop where
  registered : ∀ a ∈ R.assets.entries, a.category ∈ R.categories.entries.map CategoryEntry.name
  lists : ∀ c ∈ R.categories.entries, c.assets = R.membersOf c.name

/-- The categories divide the assets among themselves. -/
structure Partitioned (R : Registry) : Prop where
  /-- The category of an asset is registered, and it lists the asset. -/
  own : ∀ a ∈ R.assets.entries, ∃ c ∈ R.categories.entries, c.name = a.category ∧ a.name ∈ c.assets
  /-- All categories together list an asset once. -/
  once : ∀ a ∈ R.assets.entries,
    (R.categories.entries.flatMap CategoryEntry.assets).count a.name = 1
  /-- What a category lists is a registered asset of that category. -/
  known : ∀ c ∈ R.categories.entries, ∀ n ∈ c.assets,
    ∃ a, R.asset? n = some a ∧ a.category = c.name
  /-- A category lists its assets in the order of declaration. -/
  ordered : ∀ c ∈ R.categories.entries, c.assets = R.membersOf c.name

/-- An asset is a member of the category that it names. -/
theorem mem_membersOf {n c : String} :
    n ∈ R.membersOf c ↔ ∃ a, R.asset? n = some a ∧ a.category = c := by
  simp only [membersOf, List.mem_map, List.mem_filter, decide_eq_true_eq, asset?,
    Table.find?_eq_some_iff]
  constructor
  · rintro ⟨a, ⟨ha, category⟩, name⟩
    exact ⟨a, ⟨ha, name⟩, category⟩
  · rintro ⟨a, ⟨ha, name⟩, category⟩
    exact ⟨a, ⟨ha, category⟩, name⟩

/-- Nothing is counted twice within a category. -/
theorem nodup_membersOf (R : Registry) (c : String) : (R.membersOf c).Nodup :=
  R.assets.nodup.sublist (List.filter_sublist.map _)

/-- Nothing is counted in two categories: an asset names one. -/
theorem disjoint_membersOf {c d : String} (h : c ≠ d) :
    (R.membersOf c).Disjoint (R.membersOf d) := by
  intro n hc hd
  obtain ⟨a, ha, rfl⟩ := mem_membersOf.mp hc
  obtain ⟨b, hb, rfl⟩ := mem_membersOf.mp hd
  rw [ha] at hb
  cases hb
  exact h rfl

/-- No name is listed twice. -/
theorem Listed.nodup (h : R.Listed) :
    (R.categories.entries.flatMap CategoryEntry.assets).Nodup := by
  rw [List.nodup_flatMap]
  constructor
  · intro c hc
    rw [h.lists c hc]
    exact R.nodup_membersOf c.name
  · have names : R.categories.entries.Pairwise fun c d => c.name ≠ d.name :=
      List.pairwise_map.mp R.categories.nodup
    apply names.imp_of_mem
    intro c d hc hd apart
    change c.assets.Disjoint d.assets
    rw [h.lists c hc, h.lists d hd]
    exact disjoint_membersOf apart

/-- If every category lists exactly its members, every asset is listed once. -/
theorem Listed.partitioned (h : R.Listed) : R.Partitioned := by
  have own : ∀ a ∈ R.assets.entries,
      ∃ c ∈ R.categories.entries, c.name = a.category ∧ a.name ∈ c.assets := by
    intro a ha
    obtain ⟨c, hc, name⟩ := List.mem_map.mp (h.registered a ha)
    refine ⟨c, hc, name, ?_⟩
    rw [h.lists c hc, mem_membersOf]
    exact ⟨a, Table.find?_key_of_mem ha, name.symm⟩
  refine ⟨own, ?_, ?_, h.lists⟩
  · intro a ha
    obtain ⟨c, hc, _, listed⟩ := own a ha
    exact List.count_eq_one_of_mem h.nodup (List.mem_flatMap.mpr ⟨c, hc, listed⟩)
  · intro c hc n hn
    rw [h.lists c hc] at hn
    exact mem_membersOf.mp hn

/-! ### What keeps the lists -/

theorem Listed.congr {Q : Registry} (h : R.Listed) (categories : Q.categories = R.categories)
    (assets : Q.assets = R.assets) : Q.Listed := by
  constructor
  · rw [categories, assets]
    exact h.registered
  · intro c hc
    rw [categories] at hc
    rw [membersOf, assets]
    exact h.lists c hc

/-- Changing assets keeps the lists, unless names or categories change. -/
theorem Listed.map (h : R.Listed) {f : AssetEntry → AssetEntry}
    (names : ∀ a, Keyed.key (f a) = Keyed.key a) (categories : ∀ a, (f a).category = a.category) :
    Listed { R with assets := R.assets.map f names } := by
  constructor
  · intro b hb
    obtain ⟨a, ha, rfl⟩ := List.mem_map.mp hb
    rw [categories]
    exact h.registered a ha
  · intro c hc
    have names' : AssetEntry.name ∘ f = AssetEntry.name := funext names
    have same : (fun a => decide ((f a).category = c.name)) =
        fun a : AssetEntry => decide (a.category = c.name) := by
      funext a
      rw [categories]
    calc c.assets
      _ = R.membersOf c.name := h.lists c hc
      _ = ((R.assets.entries.map f).filter fun a => a.category = c.name).map AssetEntry.name := by
        rw [List.filter_map, List.map_map, names']
        exact congrArg (fun p => (R.assets.entries.filter p).map AssetEntry.name) same.symm

@[simp] theorem categories_addRemarks {b : RemarkBlock} :
    (R.addRemarks b).categories = R.categories := by
  rw [addRemarks]
  split <;> rfl

theorem name_mem_addCategory (R : Registry) (c : CategoryEntry) :
    c.name ∈ (R.addCategory c).categories.entries.map CategoryEntry.name := by
  by_contra absent
  have none : (R.categories.insert c).find? (Keyed.key c) = none := Table.find?_eq_none.mpr absent
  rw [Table.find?_insert, if_pos rfl] at none
  cases h : R.categories.find? (Keyed.key c) <;> simp [h] at none

/-- A category that is new has no assets yet. -/
theorem Listed.addCategory (h : R.Listed) (name : String) (span : Span) :
    (R.addCategory ⟨name, [], span⟩).Listed := by
  have entries := Table.entries_insert R.categories ⟨name, [], span⟩
  split at entries
  · next fresh =>
    have fresh : name ∉ R.categories.entries.map CategoryEntry.name := Table.find?_eq_none.mp fresh
    constructor
    · intro a ha
      change a.category ∈ (R.categories.insert ⟨name, [], span⟩).entries.map CategoryEntry.name
      rw [entries, List.map_append]
      exact List.mem_append_left _ (h.registered a ha)
    · intro c hc
      change c ∈ (R.categories.insert ⟨name, [], span⟩).entries at hc
      rw [entries, List.mem_append, List.mem_singleton] at hc
      cases hc with
      | inl old => exact h.lists c old
      | inr new =>
          subst new
          have none : R.assets.entries.filter (fun a => a.category = name) = [] := by
            rw [List.filter_eq_nil_iff]
            intro a ha same
            apply fresh
            rw [← of_decide_eq_true same]
            exact h.registered a ha
          change [] = (R.assets.entries.filter fun a => a.category = name).map AssetEntry.name
          rw [none, List.map_nil]
  · exact h.congr (Table.ext_entries entries) rfl

/-- An asset with a new name is listed last by its category. -/
theorem Listed.addAsset {a : AssetEntry} (h : R.Listed) (fresh : R.asset? a.name = none)
    (known : a.category ∈ R.categories.entries.map CategoryEntry.name) :
    ((R.addAsset a).enlist a.category a.name).Listed := by
  let extend (c : CategoryEntry) : CategoryEntry :=
    if c.name = a.category then { c with assets := c.assets ++ [a.name] } else c
  have name_extend : ∀ c, (extend c).name = c.name := by
    intro c
    simp only [extend]
    split <;> rfl
  have assets : (R.assets.insert a).entries = R.assets.entries ++ [a] := by
    rw [Table.entries_insert]
    exact if_pos fresh
  have members : ∀ n, ((R.addAsset a).enlist a.category a.name).membersOf n =
      R.membersOf n ++ if a.category = n then [a.name] else [] := by
    intro n
    change ((R.assets.insert a).entries.filter _).map _ = _
    rw [assets, List.filter_append, List.map_append, List.filter_singleton]
    by_cases same : a.category = n <;> simp [same, membersOf]
  constructor
  · intro b hb
    change b.category ∈ (R.categories.entries.map extend).map CategoryEntry.name
    have names : CategoryEntry.name ∘ extend = CategoryEntry.name := funext name_extend
    rw [List.map_map, names]
    change b ∈ (R.assets.insert a).entries at hb
    rw [assets, List.mem_append, List.mem_singleton] at hb
    cases hb with
    | inl old => exact h.registered b old
    | inr new => rwa [new]
  · intro c' hc'
    obtain ⟨c, hc, rfl⟩ : ∃ c ∈ R.categories.entries, extend c = c' := List.mem_map.mp hc'
    rw [members, name_extend, ← h.lists c hc]
    by_cases same : c.name = a.category
    · simp [extend, same]
    · simp [extend, same, Ne.symm same]

theorem Listed.foldl_addRemarks (h : R.Listed) (bs : List RemarkBlock) :
    (bs.foldl addRemarks R).Listed := by
  rw [Registry.foldl_addRemarks]
  exact h.congr rfl rfl

end Registry

/-! ### Declarations -/

namespace Declared

open Registry

variable {s : Declared} {c : String}

theorem names_asset (s : Declared) (c : String) (a : Asset) :
    (s.asset c a).registry.categories.entries.map CategoryEntry.name =
      s.registry.categories.entries.map CategoryEntry.name := by
  cases h : s.registry.asset? a.name.name with
  | some prior => rw [asset, h]
  | none =>
      rw [asset_of_none h, Registry.foldl_addRemarks]
      change (s.registry.categories.entries.map _).map CategoryEntry.name = _
      rw [List.map_map]
      congr 1
      funext d
      dsimp only [Function.comp_apply]
      split <;> rfl

/-- Entering an asset enlists it in its category, or does nothing where the name is taken. -/
theorem listed_asset (h : s.registry.Listed)
    (known : c ∈ s.registry.categories.entries.map CategoryEntry.name) (a : Asset) :
    (s.asset c a).registry.Listed := by
  cases taken : s.registry.asset? a.name.name with
  | some prior =>
      rw [asset, taken]
      exact h
  | none =>
      rw [asset_of_none taken]
      have added : ((s.registry.addAsset (.ofAsset c a)).enlist c a.name.name).Listed :=
        Listed.addAsset (a := .ofAsset c a) h taken known
      exact added.foldl_addRemarks _

/-- The assets of a category, one after another. -/
theorem listed_foldl_asset (h : s.registry.Listed)
    (known : c ∈ s.registry.categories.entries.map CategoryEntry.name) (as : List Asset) :
    (as.foldl (asset c) s).registry.Listed := by
  induction as generalizing s with
  | nil => exact h
  | cons a as ih =>
      rw [List.foldl_cons]
      apply ih (listed_asset h known a)
      rwa [names_asset]

/-- Associations have no category. -/
theorem listed_association (h : s.registry.Listed) (a : Association) :
    (s.association a).registry.Listed :=
  h.congr categories_addRemarks assets_addRemarks

/-- Entering a declaration keeps the lists of the categories. -/
theorem listed_declare (h : s.registry.Listed) (d : Declaration) :
    (s.declare d).registry.Listed := by
  cases d with
  | define d =>
      rw [declare, registry_define]
      exact h.congr rfl rfl
  | category c =>
      have registered : (s.registry.addCategory ⟨c.name.name, [], c.span⟩).Listed :=
        h.addCategory c.name.name c.span
      apply listed_foldl_asset
      · exact registered.congr categories_addRemarks assets_addRemarks
      · rw [categories_addRemarks]
        exact s.registry.name_mem_addCategory ⟨c.name.name, [], c.span⟩
  | associations as =>
      rw [declare]
      induction as generalizing s with
      | nil => exact h
      | cons a as ih => exact ih (listed_association h a)

theorem listed_foldl_declare (h : s.registry.Listed) (ds : List Declaration) :
    (ds.foldl declare s).registry.Listed := by
  induction ds generalizing s with
  | nil => exact h
  | cons d ds ih => exact ih (listed_declare h d)

end Declared

/-! ### Runs -/

/-- What is added after declaring does not touch categories. -/
theorem Registry.Listed.ofDeclared {s : Declared} (h : s.registry.Listed) :
    (Analysis.ofDeclared s).registry.Listed := by
  have widened : s.registry.withFields.1.Listed := by
    rw [Registry.withFields_fst]
    exact h.map _ fun _ => rfl
  exact widened.map _ fun _ => rfl

/-- The lists are right after any calls, also after some that failed. -/
theorem Analyzer.listed_run (fs : List Feed) : (empty.run fs).declared.registry.Listed := by
  rw [declared_run]
  apply Declared.listed_foldl_declare
  exact ⟨fun _ ha => absurd ha List.not_mem_nil, fun _ hc => absurd hc List.not_mem_nil⟩

/-- Whatever files an analyzer has taken in, with or without fatal errors, and also when it has
finished, the categories divide the assets among themselves. -/
theorem Analyzer.categories_partition (fs : List Feed) :
    (empty.run fs).declared.registry.Partitioned ∧
      (empty.run fs).finish.registry.Partitioned :=
  ⟨(listed_run fs).partitioned, (listed_run fs).ofDeclared.partitioned⟩

end MetaAttack
