import MetaAttack.Proofs.HasType
import MetaAttack.Registry.Ancestry

/-!
# Chains of ancestors

The walk upward in a registry finds what the relations of its schema say: the first asset on the
chain with a property is the nearest one, and an asset is on the chain exactly if it is an ancestor.

## Implementation notes

A walk that has passed the assets `seen` goes on in `R.beyond seen`. What it has passed matters only
where the specification has a loop: `findSome?_climb_iff` therefore asks that the assets passed lead
nowhere but to each other and to the asset where the walk stands.
-/

namespace MetaAttack

open Relation

namespace Registry

/-- The facts that a registry holds. -/
def schema (R : Registry) : Schema where
  asset n := ∃ a, R.asset? n = some a
  parent n p := ∃ a, R.asset? n = some a ∧ ∃ i, a.parent = some i ∧ i.name = p
  field n x t := ∃ a, R.asset? n = some a ∧ ∃ f, a.fields.find? x = some f ∧ f.target = t
  binding n x e := ∃ a, R.asset? n = some a ∧ ∃ v, a.bindings.find? x = some v ∧ v.expr = e
  step n x := ∃ a, R.asset? n = some a ∧ ∃ s, a.steps.find? x = some s

variable {R : Registry} {seen : List String} {n m : String} {a : AssetEntry} {β : Type}

/-- The schema of a registry has the assets that it has. -/
theorem hasAsset_iff : R.hasAsset n = true ↔ R.schema.asset n := by
  simp [hasAsset, Table.contains, schema, asset?, Option.isSome_iff_exists]

theorem name_of_asset? (h : R.asset? n = some a) : a.name = n := Table.key_of_find? h

/-- An entry is found under its name: names are not repeated. -/
theorem asset?_name_of_mem (h : a ∈ R.assets.entries) : R.asset? a.name = some a :=
  Table.find?_key_of_mem h

theorem mem_of_asset? (h : R.asset? n = some a) : a ∈ R.assets.entries := Table.mem_of_find? h

/-- The names of the entries are those of the schema. -/
theorem mem_names_iff : n ∈ R.assets.entries.map AssetEntry.name ↔ R.schema.asset n := by
  rw [List.mem_map]
  constructor
  · rintro ⟨a, ha, rfl⟩
    exact ⟨a, asset?_name_of_mem ha⟩
  · rintro ⟨a, ha⟩
    exact ⟨a, mem_of_asset? ha, name_of_asset? ha⟩

/-- Where all assets are changed in one way, a property of a new asset is one of the old asset. -/
theorem exists_asset?_of_map {Q : Registry} {f : AssetEntry → AssetEntry} {P : AssetEntry → Prop}
    (h : Q.asset? n = (R.asset? n).map f) :
    (∃ a, Q.asset? n = some a ∧ P a) ↔ ∃ a, R.asset? n = some a ∧ P (f a) := by
  rw [h]
  constructor
  · rintro ⟨_, hmem, hP⟩
    obtain ⟨a, ha, rfl⟩ := Option.map_eq_some_iff.mp hmem
    exact ⟨a, ha, hP⟩
  · rintro ⟨a, ha, hP⟩
    exact ⟨f a, Option.map_eq_some_iff.mpr ⟨a, ha, rfl⟩, hP⟩

/-- The parent in the schema is the one that the entry names, declared or not. -/
theorem schema_parent_iff (h : R.asset? n = some a) {p : String} :
    R.schema.parent n p ↔ ∃ i, a.parent = some i ∧ i.name = p := by
  simp [schema, h]

theorem schema_parent_of_some (ha : R.asset? n = some a) {p : Ident} (hp : a.parent = some p) :
    R.schema.parent n p.name := (schema_parent_iff ha).mpr ⟨p, hp, rfl⟩

theorem not_schema_parent_of_none (ha : R.asset? n = some a) (hp : a.parent = none) (p : String) :
    ¬ R.schema.parent n p := by
  rw [schema_parent_iff ha, hp]
  rintro ⟨_, h, _⟩
  cases h

/-- At most one parent, and one meaning for a name, because names are keys. -/
theorem schema_coherent (R : Registry) : R.schema.Coherent where
  known := fun ⟨a, ha, _⟩ => ⟨a, ha⟩
  parent := by
    rintro n _ _ ⟨a, ha, i, hi, rfl⟩ ⟨b, hb, j, hj, rfl⟩
    obtain rfl := Option.some.inj (ha.symm.trans hb)
    exact congrArg Ident.name (Option.some.inj (hi.symm.trans hj))
  field := by
    rintro n x _ _ ⟨a, ha, f, hf, rfl⟩ ⟨b, hb, g, hg, rfl⟩
    obtain rfl := Option.some.inj (ha.symm.trans hb)
    exact congrArg FieldEntry.target (Option.some.inj (hf.symm.trans hg))
  binding := by
    rintro n x _ _ ⟨a, ha, v, hv, rfl⟩ ⟨b, hb, w, hw, rfl⟩
    obtain rfl := Option.some.inj (ha.symm.trans hb)
    exact congrArg VariableEntry.expr (Option.some.inj (hv.symm.trans hw))

/-! ### The walk upward -/

/-- The assets that a walk has not passed. -/
def beyond (R : Registry) (seen : List String) : List AssetEntry :=
  R.assets.entries.filter fun a => a.name ∉ seen

/-- The way up starts with nothing passed. -/
theorem ancestors_eq (R : Registry) (n : String) : R.ancestors n = climb (R.beyond []) n := by
  have : R.beyond [] = R.assets.entries := List.filter_eq_self.mpr fun _ _ => by simp
  rw [ancestors, this]

/-- Passing an asset takes it out of what can still be passed. -/
theorem without_beyond (R : Registry) (seen : List String) (n : String) :
    without (R.beyond seen) n = R.beyond (n :: seen) := by
  rw [without, beyond, beyond, List.filter_filter]
  apply List.filter_congr
  intro a _
  simp [not_or]

theorem find?_beyond_of_mem (h : n ∈ seen) :
    ((R.beyond seen).find? fun a => a.name = n) = none := by
  rw [List.find?_eq_none]
  intro a ha
  have fresh : a.name ∉ seen := by simpa using (List.mem_filter.mp ha).2
  simpa using fun same : a.name = n => fresh (same ▸ h)

theorem find?_beyond_of_not_mem (h : n ∉ seen) :
    ((R.beyond seen).find? fun a => a.name = n) = R.asset? n := by
  rw [beyond, List.find?_filter, asset?, Table.find?]
  congr 1
  funext a
  by_cases ha : a.name = n <;> simp [Keyed.key, ha, h]

/-- A climb ends where it comes back to, or where nothing is declared. -/
theorem climb_of_passed (h : n ∈ seen ∨ R.asset? n = none) : climb (R.beyond seen) n = [] := by
  have missing : ((R.beyond seen).find? fun a => a.name = n) = none := by
    by_cases hn : n ∈ seen
    · exact find?_beyond_of_mem hn
    · exact (find?_beyond_of_not_mem hn).trans (h.resolve_left hn)
  rw [climb]
  split
  · rfl
  · next b hb =>
    rw [missing] at hb
    cases hb

/-- A climb passes an asset that is not seen yet and goes on from its parent. -/
theorem climb_of_asset (hn : n ∉ seen) (ha : R.asset? n = some a) :
    climb (R.beyond seen) n =
      a :: (a.parent.map fun p => climb (R.beyond (n :: seen)) p.name).getD [] := by
  have found := (find?_beyond_of_not_mem hn).trans ha
  rw [climb]
  split
  · next hno =>
    rw [found] at hno
    cases hno
  · next b hb =>
    obtain rfl := Option.some.inj (found.symm.trans hb)
    cases a.parent with
    | none => rfl
    | some p => exact congrArg (fun pool => a :: climb pool p.name) (R.without_beyond seen n)

theorem climb_of_top (hn : n ∉ seen) (ha : R.asset? n = some a) (hp : a.parent = none) :
    climb (R.beyond seen) n = [a] := by
  rw [climb_of_asset hn ha, hp, Option.map_none, Option.getD_none]

theorem climb_of_child (hn : n ∉ seen) (ha : R.asset? n = some a) {p : Ident}
    (hp : a.parent = some p) :
    climb (R.beyond seen) n = a :: climb (R.beyond (n :: seen)) p.name := by
  rw [climb_of_asset hn ha, hp, Option.map_some, Option.getD_some]

/-- Induction along the walk upward. -/
theorem climb_induction {P : List String → String → Prop}
    (passed : ∀ seen n, n ∈ seen ∨ R.asset? n = none → P seen n)
    (top : ∀ seen n a, n ∉ seen → R.asset? n = some a → a.parent = none → P seen n)
    (child : ∀ seen n a p, n ∉ seen → R.asset? n = some a → a.parent = some p →
      P (n :: seen) p.name → P seen n)
    (seen : List String) (n : String) : P seen n := by
  generalize hpool : R.beyond seen = pool
  induction pool, n using climb.induct generalizing seen with
  | case1 pool n h =>
      apply passed
      rw [← hpool] at h
      by_cases hn : n ∈ seen
      · exact .inl hn
      · exact .inr ((find?_beyond_of_not_mem hn).symm.trans h)
  | case2 pool n a h ih =>
      rw [← hpool] at h
      by_cases hn : n ∈ seen
      · exact passed seen n (.inl hn)
      · have ha : R.asset? n = some a := (find?_beyond_of_not_mem hn).symm.trans h
        cases hp : a.parent with
        | none => exact top seen n a hn ha hp
        | some p =>
            apply child seen n a p hn ha hp
            apply ih p (n :: seen)
            rw [← hpool, without_beyond]

/-! ### What is found on the way -/

/-- The asset of the name is declared, and the function finds something on it. -/
def Has (R : Registry) (f : AssetEntry → Option β) (n : String) : Prop :=
  ∃ a, R.asset? n = some a ∧ (f a).isSome

/-- Nothing beyond what was passed is nearest from a passed asset: its way up stays among the passed
ones. -/
theorem nearest_mem_seen {P : String → Prop} (h : R.schema.Nearest P n m)
    (closed : ∀ s ∈ seen, ∀ p, R.schema.parent s p → p ∈ seen ∨ p = n) (hn : n ∈ seen) :
    m ∈ seen := by
  have inside : ∀ s ∈ seen, ∀ p, R.schema.parent s p → p ∈ seen := by
    intro s hs p hp
    rcases closed s hs p hp with h | rfl
    · exact h
    · exact hn
  clear closed
  induction h with
  | here _ _ => exact hn
  | above parent _ _ ih => exact ih (inside _ hn _ parent)

theorem not_has_of_eq_none {f : AssetEntry → Option β} (ha : R.asset? n = some a)
    (hf : f a = none) : ¬ R.Has f n := by
  rintro ⟨b, hb, found⟩
  obtain rfl := Option.some.inj (ha.symm.trans hb)
  rw [hf] at found
  cases found

/-- What is found on an asset itself is found on the nearest one. -/
theorem exists_nearest_iff_of_eq_some {f : AssetEntry → Option β} {b c : β}
    (ha : R.asset? n = some a) (hf : f a = some c) :
    (∃ m d, R.schema.Nearest (R.Has f) n m ∧ R.asset? m = some d ∧ f d = some b) ↔ c = b := by
  have known : R.schema.asset n := ⟨a, ha⟩
  have holds : R.Has f n := ⟨a, ha, by rw [hf]; rfl⟩
  simp only [Schema.Nearest.iff_of_holds known holds]
  constructor
  · rintro ⟨_, d, rfl, hd, hb⟩
    obtain rfl := Option.some.inj (ha.symm.trans hd)
    exact Option.some.inj (hf.symm.trans hb)
  · rintro rfl
    exact ⟨n, a, rfl, ha, hf⟩

/-- What was passed stays closed under parents, up to the asset that comes next. -/
theorem closed_cons (closed : ∀ s ∈ seen, ∀ p, R.schema.parent s p → p ∈ seen ∨ p = n)
    (edge : R.schema.parent n m) :
    ∀ s ∈ n :: seen, ∀ p, R.schema.parent s p → p ∈ n :: seen ∨ p = m := by
  intro s hs p hp
  rcases List.mem_cons.mp hs with rfl | hs
  · exact .inr (R.schema_coherent.parent hp edge)
  · rcases closed s hs p hp with h | rfl
    · exact .inl (List.mem_cons_of_mem _ h)
    · exact .inl List.mem_cons_self

/-- What a walk upward finds first is found on the nearest asset that has it. -/
theorem findSome?_climb_iff {f : AssetEntry → Option β} {b : β}
    (closed : ∀ s ∈ seen, ∀ p, R.schema.parent s p → p ∈ seen ∨ p = n)
    (fails : ∀ s ∈ seen, ¬ R.Has f s) :
    (climb (R.beyond seen) n).findSome? f = some b ↔
      ∃ m a, R.schema.Nearest (R.Has f) n m ∧ R.asset? m = some a ∧ f a = some b := by
  induction seen, n using climb_induction (R := R) with
  | passed seen n h =>
      rw [climb_of_passed h]
      constructor
      · intro h
        cases h
      · rintro ⟨m, a, near, _, _⟩
        rcases h with hn | hn
        · exact absurd near.holds (fails m (nearest_mem_seen near closed hn))
        · obtain ⟨b, hb⟩ := near.start_asset R.schema_coherent
          rw [hn] at hb
          cases hb
  | top seen n a hn ha hp =>
      rw [climb_of_top hn ha hp, List.findSome?_cons]
      cases hf : f a with
      | some c => rw [exists_nearest_iff_of_eq_some ha hf, Option.some.injEq]
      | none =>
          have fails' := not_has_of_eq_none ha hf
          simp [Schema.Nearest.not_of_top (not_schema_parent_of_none ha hp) fails']
  | child seen n a p hn ha hp ih =>
      rw [climb_of_child hn ha hp, List.findSome?_cons]
      cases hf : f a with
      | some c => rw [exists_nearest_iff_of_eq_some ha hf, Option.some.injEq]
      | none =>
          have edge := schema_parent_of_some ha hp
          have fails' := not_has_of_eq_none ha hf
          simp only [Schema.Nearest.iff_of_fails R.schema_coherent edge fails']
          exact ih (closed_cons closed edge) (List.forall_mem_cons.mpr ⟨fails', fails⟩)

/-- The first hit on the way up is that of the nearest asset that has one. -/
theorem findSome?_ancestors_iff {f : AssetEntry → Option β} {b : β} :
    (R.ancestors n).findSome? f = some b ↔
      ∃ m a, R.schema.Nearest (R.Has f) n m ∧ R.asset? m = some a ∧ f a = some b := by
  rw [ancestors_eq]
  exact findSome?_climb_iff (by simp) (by simp)

/-- The first asset on the way that passes a test is the nearest that does. -/
theorem find?_ancestors_iff {p : AssetEntry → Bool} :
    (R.ancestors n).find? p = some a ↔
      R.schema.Nearest (fun c => ∃ b, R.asset? c = some b ∧ p b) n a.name ∧
        R.asset? a.name = some a := by
  have has : ∀ c, R.Has (Option.guard p) c ↔ ∃ b, R.asset? c = some b ∧ p b := by
    intro c
    simp [Has]
  rw [← List.findSome?_guard, findSome?_ancestors_iff]
  constructor
  · rintro ⟨m, b, near, hb, hg⟩
    obtain ⟨rfl, -⟩ := Option.guard_eq_some_iff.mp hg
    obtain rfl := name_of_asset? hb
    exact ⟨(Schema.Nearest.congr R.schema_coherent fun c _ => has c).mp near, hb⟩
  · rintro ⟨near, ha⟩
    obtain ⟨b, hb, hp⟩ := near.holds
    rw [ha] at hb
    cases hb
    exact ⟨a.name, a, (Schema.Nearest.congr R.schema_coherent fun c _ => has c).mpr near, ha,
      Option.guard_eq_some_iff.mpr ⟨rfl, hp⟩⟩

/-! ### Lookups -/

/-- A name means the nearest field of that name. -/
theorem findField?_eq_some_iff {x : String} {f : FieldEntry} :
    R.findField? n x = some f ↔
      ∃ m a, R.schema.Nearest (fun c => ∃ t, R.schema.field c x t) n m ∧ R.asset? m = some a ∧
        a.fields.find? x = some f := by
  have has : ∀ c, R.Has (fun a => a.fields.find? x) c ↔ ∃ t, R.schema.field c x t := by
    intro c
    simp only [Has, schema, Option.isSome_iff_exists]
    grind
  rw [findField?, findSome?_ancestors_iff]
  simp only [Schema.Nearest.congr R.schema_coherent fun c _ => has c]

/-- A call means the nearest variable of that name, on the asset that declares it. -/
theorem findVariable?_eq_some_iff {x : String} {v : VariableEntry} :
    R.findVariable? n x = some (a, v) ↔
      R.schema.Nearest (fun c => ∃ e, R.schema.binding c x e) n a.name ∧
        R.asset? a.name = some a ∧ a.bindings.find? x = some v := by
  have has : ∀ c, R.Has (fun a => (a.bindings.find? x).map (a, ·)) c ↔
      ∃ e, R.schema.binding c x e := by
    intro c
    simp only [Has, schema, Option.isSome_map, Option.isSome_iff_exists]
    grind
  rw [findVariable?, findSome?_ancestors_iff]
  simp only [Schema.Nearest.congr R.schema_coherent fun c _ => has c]
  constructor
  · rintro ⟨m, b, near, hb, hv⟩
    obtain ⟨w, hw, h⟩ := Option.map_eq_some_iff.mp hv
    cases h
    obtain rfl := name_of_asset? hb
    exact ⟨near, hb, hw⟩
  · rintro ⟨near, ha, hv⟩
    exact ⟨a.name, a, near, ha, by rw [hv]; rfl⟩

/-- A step is found exactly if the asset itself or one of its ancestors has it. -/
theorem findStep?_isSome_iff {x : String} :
    (R.findStep? n x).isSome ↔ ∃ m, R.schema.Descends n m ∧ R.schema.step m x := by
  have has : ∀ c, R.Has (fun a => a.steps.find? x) c ↔ R.schema.step c x := by
    intro c
    simp [Has, schema, Option.isSome_iff_exists]
  rw [Option.isSome_iff_exists]
  constructor
  · rintro ⟨s, hs⟩
    obtain ⟨m, a, near, -, -⟩ := findSome?_ancestors_iff.mp hs
    exact ⟨m, near.descends R.schema_coherent, (has m).mp near.holds⟩
  · rintro ⟨m, below, hm⟩
    have known : R.schema.asset m := ⟨hm.choose, hm.choose_spec.1⟩
    obtain ⟨c, near⟩ := below.exists_nearest R.schema_coherent known ((has m).mpr hm)
    obtain ⟨a, ha, h⟩ := near.holds
    obtain ⟨s, hs⟩ := Option.isSome_iff_exists.mp h
    exact ⟨s, findSome?_ancestors_iff.mpr ⟨c, a, near, ha, hs⟩⟩

/-- Whether an asset is the other one or extends it. -/
theorem isSubtype_iff : R.isSubtype n m = true ↔ R.schema.Descends n m ∧ R.schema.asset m := by
  have found : R.isSubtype n m = true ↔ ∃ b, (R.ancestors n).find? (·.name = m) = some b := by
    rw [← Option.isSome_iff_exists, List.find?_isSome]
    simp [isSubtype, isAncestor]
  rw [found]
  constructor
  · rintro ⟨b, hb⟩
    obtain ⟨near, hb'⟩ := find?_ancestors_iff.mp hb
    obtain rfl : b.name = m := by simpa using List.find?_some hb
    exact ⟨near.descends R.schema_coherent, b, hb'⟩
  · rintro ⟨below, b, hb⟩
    obtain rfl := name_of_asset? hb
    obtain ⟨c, near⟩ := below.exists_nearest R.schema_coherent ⟨b, hb⟩
      (P := fun c => ∃ d, R.asset? c = some d ∧ d.name = b.name) ⟨b, hb, rfl⟩
    obtain ⟨d, hd, hdb⟩ := near.holds
    obtain rfl := name_of_asset? hd
    exact ⟨d, find?_ancestors_iff.mpr ⟨by simpa using near, hd⟩⟩

/-- The way up passes the declared assets that the asset descends to, and no others. -/
theorem mem_ancestors_names_iff :
    m ∈ (R.ancestors n).map AssetEntry.name ↔ R.schema.Descends n m ∧ R.schema.asset m := by
  rw [← isSubtype_iff]
  simp [isSubtype, isAncestor]

/-- The type of a set operation is the first ancestor of the second type that the first one
shares. -/
theorem join?_eq_some_iff {b t : String} :
    R.join? n b = some t ↔ R.schema.Nearest (R.schema.Descends n) b t := by
  have has : ∀ c, R.schema.asset c →
      ((∃ a, R.asset? c = some a ∧ ((R.ancestors n).map AssetEntry.name).contains a.name) ↔
        R.schema.Descends n c) := by
    rintro c ⟨a, ha⟩
    have known : R.schema.asset c := ⟨a, ha⟩
    simp only [ha, Option.some.injEq, exists_eq_left', List.contains_iff_mem,
      mem_ancestors_names_iff, name_of_asset? ha, known, and_true]
  rw [join?, Option.map_eq_some_iff]
  constructor
  · rintro ⟨a, ha, rfl⟩
    exact (Schema.Nearest.congr R.schema_coherent has).mp (find?_ancestors_iff.mp ha).1
  · intro near
    obtain ⟨a, ha⟩ := near.asset
    obtain rfl := name_of_asset? ha
    exact ⟨a, find?_ancestors_iff.mpr
      ⟨(Schema.Nearest.congr R.schema_coherent has).mpr near, ha⟩, rfl⟩

end Registry

end MetaAttack
