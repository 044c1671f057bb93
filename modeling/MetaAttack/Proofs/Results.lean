import MetaAttack.Proofs.Fields
import MetaAttack.Proofs.Progress
import MetaAttack.Proofs.Roots

/-!
# Results in the registry

What resolving has yielded is written into the registry by the names of assets, variables and steps.
Everything finds its own place: the variable of an asset that has a root gets its type and a step of
it what its clauses lead to, and the steps of all other assets stay as they are.
-/

namespace MetaAttack

namespace Registry

/-- All variables of an asset, with their types. -/
def typeVariables (p : Progress) (asset : String) (vs : Table VariableEntry) :
    Table VariableEntry :=
  vs.map (typeVariable p asset) (typeVariable_name p asset)

/-- All steps of an asset, with what they require and reach. -/
def targetSteps (p : Progress) (asset : String) (ss : Table StepEntry) : Table StepEntry :=
  ss.map (targetStep p asset) (targetStep_name p asset)

end Registry

/-- The asset with the results for its members. -/
def AssetEntry.withResults (p : Progress) (a : AssetEntry) : AssetEntry :=
  { a with
    bindings := Registry.typeVariables p a.name a.bindings
    steps := Registry.targetSteps p a.name a.steps }

namespace Registry

variable {R : Registry} {p : Progress} {n x : String} {a : AssetEntry}

/-! ### The facts stay the same -/

theorem asset?_withProgress (R : Registry) (p : Progress) (n : String) :
    (R.withProgress p).asset? n = (R.asset? n).map (AssetEntry.withResults p) :=
  Table.find?_map R.assets (AssetEntry.withResults p) (fun _ => rfl) n

theorem mem_withProgress :
    a ∈ (R.withProgress p).assets.entries ↔
      ∃ b ∈ R.assets.entries, b.withResults p = a := List.mem_map

theorem expr_typeVariable (p : Progress) (asset : String) (v : VariableEntry) :
    (typeVariable p asset v).expr = v.expr := by
  rw [typeVariable]
  split <;> rfl

theorem exists_asset?_withProgress {P : AssetEntry → Prop} :
    (∃ a, (R.withProgress p).asset? n = some a ∧ P a) ↔
      ∃ a, R.asset? n = some a ∧ P (a.withResults p) :=
  exists_asset?_of_map (R.asset?_withProgress p n)

/-- Results are no part of the schema. -/
theorem schema_withProgress (R : Registry) (p : Progress) :
    (R.withProgress p).schema = R.schema := by
  ext n x t
  · simp [schema, asset?_withProgress]
  · exact exists_asset?_withProgress (P := fun a => ∃ i, a.parent = some i ∧ i.name = x)
  · exact exists_asset?_withProgress
      (P := fun a => ∃ f, a.fields.find? x = some f ∧ f.target = t)
  · refine exists_asset?_withProgress.trans ?_
    simp [schema, AssetEntry.withResults, typeVariables, Table.find?_map, expr_typeVariable]
  · refine exists_asset?_withProgress.trans ?_
    simp [schema, AssetEntry.withResults, targetSteps, Table.find?_map]

/-! ### Types of variables -/

/-- Of a variable without a type, the result is what the memory holds. -/
theorem target_typeVariable {asset : String} {v : VariableEntry} (h : v.target = none)
    (T : String) :
    (typeVariable p asset v).target = some T ↔
      p.memo.find? ⟨asset, v.name⟩ = some (.typed T) := by
  rw [typeVariable]
  split
  · next t ht => simp [ht]
  · next hno =>
    constructor
    · intro ht
      rw [h] at ht
      cases ht
    · exact fun ht => absurd ht (hno T)

theorem declaredVariable?_of_mem {v : VariableEntry} (ha : a ∈ R.assets.entries)
    (hv : v ∈ a.bindings.entries) : R.declaredVariable? ⟨a.name, v.name⟩ = some v := by
  have found : a.bindings.find? v.name = some v := Table.find?_key_of_mem hv
  simp [declaredVariable?, asset?_name_of_mem ha, found]

/-- In the end every variable of an asset that has a root is known with its type, or as one that has
none. -/
theorem find?_resolveAll_iff {v : VariableEntry} (ha : a ∈ R.assets.entries)
    (hv : v ∈ a.bindings.entries) (root : R.schema.Rooted a.name) (T : String) :
    R.resolveAll.memo.find? ⟨a.name, v.name⟩ = some (.typed T) ↔
      R.schema.HasType a.name v.expr T := by
  have declared := declaredVariable?_of_mem ha hv
  obtain ⟨_, _, listing, _⟩ := R.variablesProgress_adds
  obtain ⟨grows, _⟩ := R.resolveAll_adds
  have listed : (a.name, v) ∈ R.rootedBindings :=
    List.mem_flatMap.mpr ⟨a, mem_rooted_iff.mpr ⟨ha, root⟩, List.mem_map_of_mem hv⟩
  have known : ⟨a.name, v.name⟩ ∈ R.resolveAll.memo.keys :=
    grows.keys (listing (a.name, v) listed (by rw [declared]; rfl))
  have faithful := grows.faithful
  rw [← bindingType_iff declared]
  constructor
  · exact fun h => faithful.typed h
  · intro typed
    cases hf : R.resolveAll.memo.find? ⟨a.name, v.name⟩ with
    | none => exact absurd known (Memo.find?_eq_none.mp hf)
    | some verdict =>
        cases verdict with
        | undecided => exact absurd (faithful.undecided hf) List.not_mem_nil
        | failed => exact absurd typed (faithful.failed hf)
        | typed U =>
            obtain ⟨e, body, he⟩ := typed
            obtain ⟨d, body', hd⟩ := faithful.typed hf
            obtain rfl := R.schema_coherent.binding body body'
            rw [he.unique R.schema_coherent hd]

/-! ### Targets of steps -/

theorem mem_rootedSteps {y : String × StepEntry} :
    y ∈ R.rootedSteps ↔
      ∃ a ∈ R.assets.entries, R.schema.Rooted a.name ∧ ∃ s ∈ a.steps.entries, (a.name, s) = y := by
  simp only [rootedSteps, List.mem_flatMap, List.mem_map, mem_rooted_iff, and_assoc]

end Registry

theorem exists_of_forall₂ {α β : Type} {P : α → β → Prop} {xs : List α} {ys : List β}
    (h : List.Forall₂ P xs ys) :
    (∀ x ∈ xs, ∃ y ∈ ys, P x y) ∧ ∀ y ∈ ys, ∃ x ∈ xs, P x y := by
  induction h with
  | nil => simp
  | @cons x y xs ys head _ ih =>
      constructor
      · intro z hz
        rcases List.mem_cons.mp hz with rfl | hz
        · exact ⟨y, List.mem_cons_self, head⟩
        · obtain ⟨w, hw, hP⟩ := ih.1 z hz
          exact ⟨w, List.mem_cons_of_mem _ hw, hP⟩
      · intro z hz
        rcases List.mem_cons.mp hz with rfl | hz
        · exact ⟨x, List.mem_cons_self, head⟩
        · obtain ⟨w, hw, hP⟩ := ih.2 z hz
          exact ⟨w, List.mem_cons_of_mem _ hw, hP⟩

namespace Registry

variable {R : Registry} {a : AssetEntry} {s : StepEntry}

/-- A step of an asset that has a root finds the targets that are its own. -/
theorem find?_targets_of_rooted (ha : a ∈ R.assets.entries) (hs : s ∈ a.steps.entries)
    (root : R.schema.Rooted a.name) :
    ∃ t, (R.resolveAll.targets.find? fun t => t.step = ⟨a.name, s.name⟩) = some t ∧
      t.Of R.schema a.name s := by
  obtain ⟨given, taken⟩ := exists_of_forall₂ R.resolveAll_adds.2.1
  obtain ⟨t, ht, of⟩ := given (a.name, s) (mem_rootedSteps.mpr ⟨a, ha, root, s, hs, rfl⟩)
  have found : (R.resolveAll.targets.find? fun t => t.step = ⟨a.name, s.name⟩).isSome :=
    List.find?_isSome.mpr ⟨t, ht, by simpa using of.step⟩
  obtain ⟨u, hu⟩ := Option.isSome_iff_exists.mp found
  obtain ⟨y, hy, of'⟩ := taken u (List.mem_of_find?_eq_some hu)
  obtain ⟨b, hb, _, r, hr, rfl⟩ := mem_rootedSteps.mp hy
  -- The name of the targets determines the asset and the step that they are of.
  have key : (⟨b.name, r.name⟩ : StepRef) = ⟨a.name, s.name⟩ :=
    of'.step.symm.trans (by simpa using List.find?_some hu)
  obtain ⟨hba, hrs⟩ := StepRef.mk.inj key
  obtain rfl : b = a := Table.eq_of_key_eq hb ha hba
  obtain rfl : r = s := Table.eq_of_key_eq hr hs hrs
  exact ⟨u, hu, of'⟩

/-- Steps of broken assets are never resolved. -/
theorem find?_targets_of_not_rooted (n : String) (root : ¬ R.schema.Rooted a.name) :
    (R.resolveAll.targets.find? fun t => t.step = ⟨a.name, n⟩) = none := by
  rw [List.find?_eq_none]
  intro t ht key
  obtain ⟨y, hy, of⟩ := (exists_of_forall₂ R.resolveAll_adds.2.1).2 t ht
  obtain ⟨b, _, root', r, _, rfl⟩ := mem_rootedSteps.mp hy
  have same : (⟨b.name, r.name⟩ : StepRef) = ⟨a.name, n⟩ := of.step.symm.trans (by simpa using key)
  exact root ((StepRef.mk.inj same).1 ▸ root')

/-- The step of an asset with a root gets what its clauses lead to. -/
theorem targetStep_of_rooted (ha : a ∈ R.assets.entries) (hs : s ∈ a.steps.entries)
    (root : R.schema.Rooted a.name) :
    ∃ t : StepTargets, t.Of R.schema a.name s ∧
      targetStep R.resolveAll a.name s =
        { s with required := t.required, reached := t.reached } := by
  obtain ⟨t, ht, of⟩ := find?_targets_of_rooted ha hs root
  refine ⟨t, of, ?_⟩
  rw [targetStep]
  rw [ht]

/-- The step of an asset without a root stays without results. -/
theorem targetStep_of_not_rooted (root : ¬ R.schema.Rooted a.name) :
    targetStep R.resolveAll a.name s = s := by
  rw [targetStep]
  rw [find?_targets_of_not_rooted s.name root]

end Registry

end MetaAttack
