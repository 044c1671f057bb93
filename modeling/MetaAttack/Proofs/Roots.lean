import MetaAttack.Check.Extension
import MetaAttack.Check.Fields
import MetaAttack.Proofs.Chain

/-!
# Roots and loops

A chain of ancestors ends in a root, at a parent that is not declared, or where it comes back to an
asset that it has passed. The walk upward tells these apart, and the search for loops of extensions
finds one exactly if there is one.
-/

namespace MetaAttack

open Relation

namespace Registry

variable {R : Registry} {seen : List String} {n m : String} {a b : AssetEntry}

/-! ### Roots -/

theorem rooted_of_getLast?_climb (h : (climb (R.beyond seen) n).getLast? = some a)
    (top : a.parent = none) : R.schema.Rooted n := by
  induction seen, n using climb_induction (R := R) with
  | passed seen n hn =>
      rw [climb_of_passed hn] at h
      cases h
  | top seen n b hn hb hp => exact .root ⟨b, hb⟩ (not_schema_parent_of_none hb hp)
  | child seen n b p hn hb hp ih =>
      rw [climb_of_child hn hb hp] at h
      cases hrest : climb (R.beyond (n :: seen)) p.name with
      | nil =>
          obtain rfl : b = a := by simpa [hrest] using h
          rw [hp] at top
          cases top
      | cons c cs =>
          rw [hrest, List.getLast?_cons_cons] at h
          exact .child ⟨b, hb⟩ (schema_parent_of_some hb hp) (ih (hrest ▸ h))

/-- A walk that can come to nothing that it passed is the whole chain. -/
theorem climb_eq_ancestors (h : ∀ s ∈ seen, ¬ R.schema.Descends n s) :
    climb (R.beyond seen) n = R.ancestors n := by
  have agree : ∀ seen₁ n seen₂, (∀ m, R.schema.Descends n m → (m ∈ seen₁ ↔ m ∈ seen₂)) →
      climb (R.beyond seen₁) n = climb (R.beyond seen₂) n := by
    intro seen₁ n
    induction seen₁, n using climb_induction (R := R) with
    | passed seen₁ n hn =>
        intro seen₂ same
        rw [climb_of_passed hn, climb_of_passed (hn.imp_left (same n .refl).mp)]
    | top seen₁ n a hn ha hp =>
        intro seen₂ same
        have hn' : n ∉ seen₂ := fun h => hn ((same n .refl).mpr h)
        rw [climb_of_top hn ha hp, climb_of_top hn' ha hp]
    | child seen₁ n a p hn ha hp ih =>
        intro seen₂ same
        have hn' : n ∉ seen₂ := fun h => hn ((same n .refl).mpr h)
        rw [climb_of_child hn ha hp, climb_of_child hn' ha hp]
        congr 1
        by_cases hpa : R.asset? p.name = none
        · rw [climb_of_passed (.inr hpa), climb_of_passed (.inr hpa)]
        · have edge : R.schema.Extends n p.name :=
            ⟨schema_parent_of_some ha hp, Option.ne_none_iff_exists'.mp hpa⟩
          apply ih
          intro m path
          rw [List.mem_cons, List.mem_cons, same m (.head edge path)]
  rw [ancestors_eq]
  exact agree seen n [] fun m path => by simpa using fun hm => h m hm path

/-- The chain of an asset with a root is the asset and the chain of its parent. -/
theorem ancestors_of_rooted (h : R.schema.Rooted n) (ha : R.asset? n = some a) :
    R.ancestors n = a :: (a.parent.map fun p => R.ancestors p.name).getD [] := by
  rw [ancestors_eq, climb_of_asset (by simp) ha]
  cases hp : a.parent with
  | none => rfl
  | some p =>
      have edge := schema_parent_of_some ha hp
      rw [Option.map_some, Option.map_some, Option.getD_some, Option.getD_some]
      congr 1
      apply climb_eq_ancestors
      intro s hs path
      obtain rfl := List.mem_singleton.mp hs
      rcases ReflTransGen.cases_head path with heq | ⟨q, step, rest⟩
      · have known : R.schema.asset p.name := heq ▸ ⟨a, ha⟩
        exact h.not_inherits R.schema_coherent (.head' ⟨edge, known⟩ path)
      · have known : R.schema.asset p.name := R.schema_coherent.known step.1
        exact h.not_inherits R.schema_coherent (.head' ⟨edge, known⟩ path)

theorem chainEnd?_of_rooted (h : R.schema.Rooted n) : R.chainEnd? n = none := by
  induction h with
  | @root n known top =>
      obtain ⟨a, ha⟩ := known
      have hp : a.parent = none := by
        cases hp : a.parent with
        | none => rfl
        | some p => exact absurd (schema_parent_of_some ha hp) (top p.name)
      simp [chainEnd?, ancestors_of_rooted (.root ⟨a, ha⟩ top) ha, hp]
  | @child n p known parent rest ih =>
      obtain ⟨a, ha⟩ := known
      obtain ⟨i, hi, rfl⟩ := (schema_parent_iff ha).mp parent
      obtain ⟨b, hb⟩ := rest.asset
      have hne : R.ancestors i.name ≠ [] := by
        rw [ancestors_of_rooted rest hb]
        simp
      obtain ⟨c, cs, hcs⟩ := List.exists_cons_of_ne_nil hne
      rw [chainEnd?, hcs] at ih
      rw [chainEnd?, ancestors_of_rooted (.child ⟨a, ha⟩ parent rest) ha, hi, Option.map_some,
        Option.getD_some, hcs, List.getLast?_cons_cons]
      exact ih

/-- An asset is broken exactly if its chain has no root. -/
theorem isBroken_eq_false_iff (h : R.schema.asset n) :
    R.isBroken n = false ↔ R.schema.Rooted n := by
  constructor
  · intro hb
    obtain ⟨a, ha⟩ := h
    have hne : R.ancestors n ≠ [] := by
      rw [ancestors_eq, climb_of_asset (by simp) ha]
      simp
    obtain ⟨last, hlast⟩ := Option.isSome_iff_exists.mp (List.getLast?_isSome.mpr hne)
    have top : last.parent = none := by simpa [isBroken, chainEnd?, hlast] using hb
    exact rooted_of_getLast?_climb (ancestors_eq R n ▸ hlast) top
  · intro h
    simp [isBroken, chainEnd?_of_rooted h]

theorem isBroken_eq_false_iff_of_mem (h : a ∈ R.assets.entries) :
    R.isBroken a.name = false ↔ R.schema.Rooted a.name :=
  isBroken_eq_false_iff ⟨a, asset?_name_of_mem h⟩

theorem mem_rooted_iff : a ∈ R.rooted ↔ a ∈ R.assets.entries ∧ R.schema.Rooted a.name := by
  rw [rooted, List.mem_filter]
  apply and_congr_right
  intro ha
  rw [← isBroken_eq_false_iff_of_mem ha]
  simp

/-! ### Loops -/

theorem asset?_of_mem_climb (h : a ∈ climb (R.beyond seen) n) : R.asset? a.name = some a := by
  induction seen, n using climb_induction (R := R) with
  | passed seen n hn =>
      rw [climb_of_passed hn] at h
      cases h
  | top seen n b hn hb hp =>
      rw [climb_of_top hn hb hp] at h
      obtain rfl := List.mem_singleton.mp h
      exact asset?_name_of_mem (mem_of_asset? hb)
  | child seen n b p hn hb hp ih =>
      rw [climb_of_child hn hb hp] at h
      rcases List.mem_cons.mp h with rfl | h
      · exact asset?_name_of_mem (mem_of_asset? hb)
      · exact ih h

theorem asset?_of_mem_ancestors (h : a ∈ R.ancestors n) : R.asset? a.name = some a :=
  asset?_of_mem_climb (ancestors_eq R n ▸ h)

theorem not_mem_seen_of_mem_climb (h : a ∈ climb (R.beyond seen) n) : a.name ∉ seen := by
  induction seen, n using climb_induction (R := R) with
  | passed seen n hn =>
      rw [climb_of_passed hn] at h
      cases h
  | top seen n b hn hb hp =>
      rw [climb_of_top hn hb hp] at h
      obtain rfl := List.mem_singleton.mp h
      rwa [name_of_asset? hb]
  | child seen n b p hn hb hp ih =>
      rw [climb_of_child hn hb hp] at h
      rcases List.mem_cons.mp h with rfl | h
      · rwa [name_of_asset? hb]
      · exact fun hs => ih h (List.mem_cons_of_mem _ hs)

/-- Above an asset on the way comes another one on the way, or one that was passed. -/
theorem climb_closed (h : a ∈ climb (R.beyond seen) n) (edge : R.schema.Extends a.name m) :
    m ∈ seen ∨ m ∈ (climb (R.beyond seen) n).map AssetEntry.name := by
  induction seen, n using climb_induction (R := R) with
  | passed seen n hn =>
      rw [climb_of_passed hn] at h
      cases h
  | top seen n b hn hb hp =>
      rw [climb_of_top hn hb hp] at h
      obtain rfl := List.mem_singleton.mp h
      exact absurd edge.1 (not_schema_parent_of_none (asset?_name_of_mem (mem_of_asset? hb)) hp m)
  | child seen n b p hn hb hp ih =>
      rw [climb_of_child hn hb hp] at h ⊢
      rw [List.map_cons, List.mem_cons, name_of_asset? hb]
      have onward : m ∈ n :: seen ∨
          m ∈ (climb (R.beyond (n :: seen)) p.name).map AssetEntry.name := by
        rcases List.mem_cons.mp h with rfl | h
        · rw [name_of_asset? hb] at edge
          obtain rfl := R.schema_coherent.parent (schema_parent_of_some hb hp) edge.1
          by_cases hs : p.name ∈ n :: seen
          · exact .inl hs
          · obtain ⟨c, hc⟩ := edge.2
            rw [climb_of_asset hs hc, List.map_cons, name_of_asset? hc]
            exact .inr List.mem_cons_self
        · exact ih h
      rcases onward with hs | hrest
      · rcases List.mem_cons.mp hs with heq | hs
        · exact .inr (.inl heq)
        · exact .inl hs
      · exact .inr (.inr hrest)

/-- Where the next asset was passed, the walk stops. -/
theorem getLast?_climb (h : a ∈ climb (R.beyond seen) n) (edge : R.schema.Extends a.name m)
    (hm : m ∈ seen) : (climb (R.beyond seen) n).getLast? = some a := by
  induction seen, n using climb_induction (R := R) with
  | passed seen n hn =>
      rw [climb_of_passed hn] at h
      cases h
  | top seen n b hn hb hp =>
      rw [climb_of_top hn hb hp] at h ⊢
      obtain rfl := List.mem_singleton.mp h
      rfl
  | child seen n b p hn hb hp ih =>
      rw [climb_of_child hn hb hp] at h ⊢
      have hm' := List.mem_cons_of_mem n hm
      rcases List.mem_cons.mp h with rfl | h
      · rw [name_of_asset? hb] at edge
        obtain rfl := R.schema_coherent.parent (schema_parent_of_some hb hp) edge.1
        rw [climb_of_passed (.inl hm'), List.getLast?_singleton]
      · rw [List.getLast?_cons, ih h hm', Option.getD_some]

/-- The walk from an asset on a loop stops before it would come back to that asset. -/
theorem chainEnd?_of_loop (loop : R.schema.Inherits n n) : R.chainEnd? n = some n := by
  obtain ⟨m, edge, path⟩ := TransGen.head'_iff.mp loop
  obtain ⟨a, ha⟩ := R.schema_coherent.known edge.1
  obtain ⟨p, hp, rfl⟩ := (schema_parent_iff ha).mp edge.1
  have chain : R.ancestors n = a :: climb (R.beyond [n]) p.name := by
    rw [ancestors_eq, climb_of_child List.not_mem_nil ha hp]
  by_cases self : p.name = n
  · rw [chainEnd?, chain, climb_of_passed (.inl (by simp [self]))]
    simp [hp, self]
  · obtain ⟨b, hb⟩ := edge.2
    have start : p.name ∈ (climb (R.beyond [n]) p.name).map AssetEntry.name := by
      rw [climb_of_asset (by simpa using self) hb]
      simp [name_of_asset? hb]
    -- Following the loop from the parent, some asset on the way extends the first one.
    have turn : ∀ q, R.schema.Descends q n →
        q ∈ (climb (R.beyond [n]) p.name).map AssetEntry.name →
        ∃ c ∈ climb (R.beyond [n]) p.name, R.schema.Extends c.name n := by
      intro q back
      induction back using ReflTransGen.head_induction_on with
      | refl =>
          intro hq
          obtain ⟨c, hc, hcn⟩ := List.mem_map.mp hq
          exact absurd (List.mem_singleton.mpr hcn) (not_mem_seen_of_mem_climb hc)
      | head step _ ih =>
          intro hq
          obtain ⟨c, hc, rfl⟩ := List.mem_map.mp hq
          rcases climb_closed hc step with hs | hrest
          · exact ⟨c, hc, List.mem_singleton.mp hs ▸ step⟩
          · exact ih hrest
    obtain ⟨c, hc, last⟩ := turn p.name path start
    have hlast := getLast?_climb hc last (List.mem_singleton_self n)
    obtain ⟨i, hi, hin⟩ := (schema_parent_iff (asset?_of_mem_climb hc)).mp last.1
    rw [chainEnd?, chain, List.getLast?_cons, hlast]
    simp [hi, hin]

theorem inherits_of_chainEnd? (h : R.chainEnd? n = some n) : R.schema.Inherits n n := by
  obtain ⟨last, hlast, hend⟩ := Option.bind_eq_some_iff.mp h
  obtain ⟨p, hp, rfl⟩ := Option.map_eq_some_iff.mp hend
  have hmem : last ∈ R.ancestors p.name := List.mem_of_getLast? hlast
  obtain ⟨path, known⟩ := mem_ancestors_names_iff.mp (List.mem_map_of_mem hmem)
  have hlast' := asset?_of_mem_ancestors hmem
  refine TransGen.tail' path ⟨(schema_parent_iff hlast').mpr ⟨p, hp, rfl⟩, ?_⟩
  rcases ReflTransGen.cases_head path with heq | ⟨_, step, _⟩
  · exact heq ▸ known
  · exact R.schema_coherent.known step.1

theorem loopsAmong_cons_of_reported {reported : List String} {a : AssetEntry} (as : List AssetEntry)
    (h : a.name ∈ reported) : R.loopsAmong reported (a :: as) = R.loopsAmong reported as := by
  rw [loopsAmong, if_pos h]

theorem loopsAmong_cons_of_found {reported : List String} {a : AssetEntry} (as : List AssetEntry)
    (h : a.name ∉ reported) (found : R.chainEnd? a.name = some a.name) :
    R.loopsAmong reported (a :: as) = (a, R.ancestors a.name) ::
      R.loopsAmong (reported ++ (R.ancestors a.name).map AssetEntry.name) as := by
  rw [loopsAmong, if_neg h, if_pos found]

theorem loopsAmong_cons_of_clean {reported : List String} {a : AssetEntry} (as : List AssetEntry)
    (clean : R.chainEnd? a.name ≠ some a.name) :
    R.loopsAmong reported (a :: as) = R.loopsAmong reported as := by
  by_cases h : a.name ∈ reported
  · exact loopsAmong_cons_of_reported as h
  · rw [loopsAmong, if_neg h, if_neg clean]

/-- The search for loops starts with none reported, so it finds one where there is one. -/
theorem loopsAmong_eq_nil_iff {as : List AssetEntry} :
    R.loopsAmong [] as = [] ↔ ∀ a ∈ as, R.chainEnd? a.name ≠ some a.name := by
  induction as with
  | nil => simp [loopsAmong]
  | cons a as ih =>
      rw [List.forall_mem_cons]
      by_cases found : R.chainEnd? a.name = some a.name
      · simp [loopsAmong_cons_of_found as List.not_mem_nil found, found]
      · rw [loopsAmong_cons_of_clean as found, ih]
        exact (and_iff_right found).symm

/-- A loop of extensions is reported exactly if there is one. -/
theorem loopErrors_eq_nil_iff : R.loopErrors = [] ↔ ∀ n, ¬ R.schema.Inherits n n := by
  rw [loopErrors, loops, List.map_eq_nil_iff, loopsAmong_eq_nil_iff]
  constructor
  · intro h n loop
    obtain ⟨a, ha⟩ := loop.asset R.schema_coherent
    obtain rfl := name_of_asset? ha
    exact h a (mem_of_asset? ha) (chainEnd?_of_loop loop)
  · exact fun h a _ found => h a.name (inherits_of_chainEnd? found)

/-- All parents are declared exactly if none is reported. -/
theorem parentErrors_eq_nil_iff :
    R.parentErrors = [] ↔ ∀ n p, R.schema.parent n p → R.schema.asset p := by
  rw [parentErrors, List.filterMap_eq_nil_iff]
  constructor
  · rintro h n _ ⟨a, ha, p, hp, rfl⟩
    have := h a (mem_of_asset? ha)
    rw [hp, Option.bind_some] at this
    rw [← hasAsset_iff]
    cases hk : R.hasAsset p.name with
    | true => rfl
    | false => simp [hk] at this
  · intro h a ha
    cases hp : a.parent with
    | none => rfl
    | some p =>
        have known := h a.name p.name ⟨a, asset?_name_of_mem ha, p, hp, rfl⟩
        simp [hasAsset_iff.mpr known]

/-- Where all parents are declared and no asset extends itself, every chain has a root. -/
theorem rooted_of_wellFounded (parents : ∀ n p, R.schema.parent n p → R.schema.asset p)
    (acyclic : ∀ n, ¬ R.schema.Inherits n n) (known : R.schema.asset n) :
    R.schema.Rooted n := by
  -- What was passed inherits from where the walk is, so it cannot be met again.
  have walk : ∀ (seen : List String) n, (∀ s ∈ seen, R.schema.Inherits s n) → R.schema.asset n →
      R.schema.Rooted n := by
    intro seen n
    induction seen, n using climb_induction (R := R) with
    | passed seen n hn =>
        rintro below ⟨a, ha⟩
        rcases hn with hs | hno
        · exact absurd (below n hs) (acyclic n)
        · rw [ha] at hno
          cases hno
    | top seen n a hn ha hp => exact fun _ known => .root known (not_schema_parent_of_none ha hp)
    | child seen n a p hn ha hp ih =>
        intro below known
        have edge := schema_parent_of_some ha hp
        have step : R.schema.Extends n p.name := ⟨edge, parents n p.name edge⟩
        have below' : ∀ s ∈ n :: seen, R.schema.Inherits s p.name := by
          intro s hs
          rcases List.mem_cons.mp hs with rfl | hs
          · exact .single step
          · exact (below s hs).tail step
        exact .child known edge (ih below' step.2)
  exact walk [] n (fun s hs => absurd hs List.not_mem_nil) known

end Registry

end MetaAttack
