import MetaAttack.Proofs.Roots

/-!
# Assets without a root

The broken assets of a registry are those whose chains end in no root. They are known from the walks
upward alone; that none of them goes without an error follows from what the checks of parents and of
loops find.
-/

namespace MetaAttack

open Relation

/-- The way up of an ancestor is part of the way up. -/
theorem Schema.Rooted.of_descends {S : Schema} (hS : S.Coherent) {n m : String} (h : S.Rooted n)
    (path : S.Descends n m) : S.Rooted m := by
  induction path using ReflTransGen.head_induction_on with
  | refl => exact h
  | head edge _ ih =>
      cases h with
      | root _ top => exact absurd edge.1 (top _)
      | child _ parent rest => exact ih (hS.parent parent edge.1 ▸ rest)

namespace Registry

variable {R : Registry} {n m : String}

/-- Broken are the declared assets whose way up does not end at a top. -/
theorem mem_broken_iff : n ∈ R.broken ↔ R.schema.asset n ∧ ¬ R.schema.Rooted n := by
  rw [broken, List.mem_filter, mem_names_iff]
  refine and_congr_right fun h => ?_
  rw [← isBroken_eq_false_iff h, Bool.not_eq_false]

/-- Nothing is broken exactly if every asset is rooted. -/
theorem broken_eq_nil_iff : R.broken = [] ↔ ∀ n, R.schema.asset n → R.schema.Rooted n := by
  rw [List.eq_nil_iff_forall_not_mem]
  simp only [mem_broken_iff, not_and, Classical.not_not]

/-- All assets have a root exactly if no check of the hierarchy finds anything. -/
theorem forall_rooted_iff :
    (∀ n, R.schema.asset n → R.schema.Rooted n) ↔ R.parentErrors = [] ∧ R.loopErrors = [] := by
  rw [parentErrors_eq_nil_iff, loopErrors_eq_nil_iff]
  constructor
  · intro rooted
    constructor
    · intro n p edge
      cases rooted n (R.schema_coherent.known edge) with
      | root _ top => exact absurd edge (top p)
      | child _ parent rest => exact R.schema_coherent.parent parent edge ▸ rest.asset
    · intro n loop
      exact (rooted n (loop.asset R.schema_coherent)).not_inherits R.schema_coherent loop
  · rintro ⟨parents, acyclic⟩ n known
    exact rooted_of_wellFounded parents acyclic known

/-- Where no parent is missing and nothing is looped, every way up ends. -/
theorem rooted_of_extensionErrors (h : R.extensionErrors = []) :
    ∀ n, R.schema.asset n → R.schema.Rooted n :=
  forall_rooted_iff.mpr (List.append_eq_nil_iff.mp h)

/-- What is listed as broken. -/
structure BrokenListed (R : Registry) : Prop where
  /-- In the order of declaration, and once each. -/
  order : R.broken.Sublist (R.assets.entries.map AssetEntry.name)
  nodup : R.broken.Nodup
  mem : ∀ n, n ∈ R.broken ↔ R.schema.asset n ∧ ¬ R.schema.Rooted n
  /-- Whatever descends from a broken asset is broken. -/
  below : ∀ n ∈ R.broken, ∀ m, R.schema.Descends m n → m ∈ R.broken
  /-- Broken assets never come without an error. -/
  empty : R.broken = [] ↔ R.parentErrors = [] ∧ R.loopErrors = []
  /-- Without an error of the hierarchy, the checks that pass over broken assets see all assets. -/
  unskipped : R.extensionErrors = [] →
    R.rooted = R.assets.entries ∧ ∀ a ∈ R.assets.entries, R.isBroken a.name = false

/-- The broken assets are those without a root, and they always come with an error. -/
theorem brokenListed (R : Registry) : R.BrokenListed where
  order := List.filter_sublist
  nodup := R.assets.nodup.sublist List.filter_sublist
  mem := fun _ => mem_broken_iff
  below := by
    intro n hn m path
    obtain ⟨known, unrooted⟩ := mem_broken_iff.mp hn
    refine mem_broken_iff.mpr ⟨?_, fun root => unrooted (root.of_descends R.schema_coherent path)⟩
    rcases ReflTransGen.cases_head path with rfl | ⟨p, edge, _⟩
    · exact known
    · exact R.schema_coherent.known edge.1
  empty := by rw [broken_eq_nil_iff, forall_rooted_iff]
  unskipped := by
    intro h
    have unbroken : ∀ a ∈ R.assets.entries, R.isBroken a.name = false := by
      intro a ha
      rw [isBroken_eq_false_iff_of_mem ha]
      exact rooted_of_extensionErrors h a.name ⟨a, asset?_name_of_mem ha⟩
    refine ⟨List.filter_eq_self.mpr fun a ha => ?_, unbroken⟩
    rw [unbroken a ha, Bool.not_false]

end Registry

end MetaAttack
