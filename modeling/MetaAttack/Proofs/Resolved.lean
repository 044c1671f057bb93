import MetaAttack.Proofs.Apart
import MetaAttack.Proofs.Intake
import MetaAttack.Proofs.Results

/-!
# The resolved model

Whatever files an analyzer takes in, and whatever is wrong with them, the registry of its analysis
holds the results of the typing relation and no others, reports each expression that has none, and
refers to nothing that is not declared.

## Implementation notes

The statements speak of the schema of the final registry. It is that of the registry which was
resolved, since results are no facts of a schema.
-/

namespace MetaAttack

open Relation

namespace Analysis

open Classical in
/-- The results in the registry of the analysis, and its errors about expressions of clauses, are
those of the typing relation. -/
structure Complete (A : Analysis) : Prop where
  target : ∀ a ∈ A.registry.assets.entries, A.registry.schema.Rooted a.name →
    ∀ v ∈ a.bindings.entries, ∀ T,
      v.target = some T ↔ A.registry.schema.HasType a.name v.expr T
  required : ∀ a ∈ A.registry.assets.entries, A.registry.schema.Rooted a.name →
    ∀ s ∈ a.steps.entries,
      Yields (A.registry.schema.HasType a.name) s.requiresExprs s.required
  reached : ∀ a ∈ A.registry.assets.entries, A.registry.schema.Rooted a.name →
    ∀ s ∈ a.steps.entries,
      Yields (A.registry.schema.LeadsTo a.name) s.reachesExprs s.reached
  broken : ∀ a ∈ A.registry.assets.entries, ¬ A.registry.schema.Rooted a.name →
    ∀ s ∈ a.steps.entries, s.required = [] ∧ s.reached = []
  /-- Each expression that yields nothing is reported once, with its clause, in source order. -/
  unresolved : A.errors.filterMap SemanticError.unresolvedAt? =
    (A.registry.assets.entries.filter fun a => A.registry.schema.Rooted a.name).flatMap fun a =>
      a.steps.entries.flatMap fun s => s.missed A.registry.schema a.name
  /-- Each expression of a clause has a result or is reported. -/
  counts : ∀ a ∈ A.registry.assets.entries, A.registry.schema.Rooted a.name →
    ∀ s ∈ a.steps.entries,
      let missed := s.missed A.registry.schema a.name
      s.requiresExprs.length =
          s.required.length + (missed.filter fun x => x.1 = .requires).length ∧
        s.reachesExprs.length =
          s.reached.length + (missed.filter fun x => x.1 ≠ .requires).length

/-- The results in the registry of the analysis refer to what is declared. -/
structure Closed (A : Analysis) : Prop where
  target : ∀ a ∈ A.registry.assets.entries, ∀ v ∈ a.bindings.entries, ∀ T,
    v.target = some T → A.registry.schema.asset T
  required : ∀ a ∈ A.registry.assets.entries, ∀ s ∈ a.steps.entries, ∀ T ∈ s.required,
    A.registry.schema.asset T
  reached : ∀ a ∈ A.registry.assets.entries, ∀ s ∈ a.steps.entries, ∀ r ∈ s.reached,
    A.registry.schema.asset r.asset ∧
      ∃ D, A.registry.schema.Descends r.asset D ∧ A.registry.schema.step D r.step

end Analysis

/-! ### Members with their results -/

namespace AssetEntry

variable {R : Registry} {a : AssetEntry}

theorem mem_bindings_withResults {p : Progress} {v : VariableEntry} :
    v ∈ (a.withResults p).bindings.entries ↔
      ∃ w ∈ a.bindings.entries, Registry.typeVariable p a.name w = v := List.mem_map

theorem mem_steps_withResults {p : Progress} {s : StepEntry} :
    s ∈ (a.withResults p).steps.entries ↔
      ∃ t ∈ a.steps.entries, Registry.targetStep p a.name t = s := List.mem_map

theorem missed_targetStep (p : Progress) (S : Schema) (asset : String) (s : StepEntry) :
    (Registry.targetStep p asset s).missed S asset = s.missed S asset := by
  rw [Registry.targetStep]
  split <;> rfl

theorem clause_ne_requires (c : Reaches) : c.clause ≠ .requires := by
  rw [Reaches.clause]
  split <;> simp

theorem missed_requires_length (S : Schema) (asset : String) (s : StepEntry) :
    ((s.missed S asset).filter fun x => x.1 = .requires).length =
      (fruitless (S.HasType asset) s.requiresExprs).length := by
  rw [StepEntry.missed, StepEntry.requiresExprs]
  rw [List.filter_append, List.length_append]
  cases s.requires <;> cases s.reaches <;>
    simp [clause_ne_requires, fruitless]

theorem missed_reaches_length (S : Schema) (asset : String) (s : StepEntry) :
    ((s.missed S asset).filter fun x => x.1 ≠ .requires).length =
      (fruitless (S.LeadsTo asset) s.reachesExprs).length := by
  rw [StepEntry.missed, StepEntry.reachesExprs]
  rw [List.filter_append, List.length_append]
  cases s.requires <;> cases s.reaches <;>
    simp [clause_ne_requires, fruitless]

/-- A variable of an asset with a root gets the type of its body. -/
theorem target_withResults (ha : a ∈ R.assets.entries) (unresolved : a.Unresolved)
    (root : R.schema.Rooted a.name) {v : VariableEntry}
    (hv : v ∈ (a.withResults R.resolveAll).bindings.entries) (T : String) :
    v.target = some T ↔ R.schema.HasType a.name v.expr T := by
  obtain ⟨w, hw, rfl⟩ := mem_bindings_withResults.mp hv
  rw [Registry.target_typeVariable (unresolved.target w hw), Registry.expr_typeVariable]
  exact Registry.find?_resolveAll_iff ha hw root T

/-- Any other variable has no type, or that of its body where it is declared. -/
theorem bindingType_of_target (unresolved : a.Unresolved) {v : VariableEntry}
    (hv : v ∈ (a.withResults R.resolveAll).bindings.entries) {T : String}
    (ht : v.target = some T) : R.schema.BindingType a.name v.name T := by
  obtain ⟨w, hw, rfl⟩ := mem_bindings_withResults.mp hv
  rw [Registry.target_typeVariable (unresolved.target w hw)] at ht
  rw [Registry.typeVariable_name]
  exact R.resolveAll_adds.1.faithful.typed ht

/-- A step of an asset with a root gets what its clauses yield. -/
theorem of_withResults (ha : a ∈ R.assets.entries) (root : R.schema.Rooted a.name) {s : StepEntry}
    (hs : s ∈ (a.withResults R.resolveAll).steps.entries) :
    Yields (R.schema.HasType a.name) s.requiresExprs s.required ∧
      Yields (R.schema.LeadsTo a.name) s.reachesExprs s.reached := by
  obtain ⟨t, ht, rfl⟩ := mem_steps_withResults.mp hs
  obtain ⟨targets, of, heq⟩ := Registry.targetStep_of_rooted ha ht root
  rw [heq]
  exact ⟨of.required, of.reached⟩

/-- A step of an asset without a root gets nothing. -/
theorem empty_withResults (unresolved : a.Unresolved) (root : ¬ R.schema.Rooted a.name)
    {s : StepEntry} (hs : s ∈ (a.withResults R.resolveAll).steps.entries) :
    s.required = [] ∧ s.reached = [] := by
  obtain ⟨t, ht, rfl⟩ := mem_steps_withResults.mp hs
  rw [Registry.targetStep_of_not_rooted root]
  exact ⟨unresolved.required t ht, unresolved.reached t ht⟩

end AssetEntry

namespace Registry

variable {R : Registry}

/-! ### Errors -/

theorem filterMap_of_map_eq {es : List SemanticError} {xs : List (Clause × Span)}
    (h : es.map SemanticError.unresolvedAt? = xs.map some) :
    es.filterMap SemanticError.unresolvedAt? = xs := by
  calc es.filterMap SemanticError.unresolvedAt?
    _ = (es.map SemanticError.unresolvedAt?).filterMap id := by rw [List.filterMap_map]; rfl
    _ = (xs.map some).filterMap id := by rw [h]
    _ = xs := by simp [List.filterMap_map]

theorem unresolved_resolveAll (R : Registry) :
    R.resolveAll.errors.filterMap SemanticError.unresolvedAt? =
      R.rootedSteps.flatMap fun x => x.2.missed R.schema x.1 := by
  obtain ⟨_, _, _, marks⟩ := R.variablesProgress_adds
  obtain ⟨_, _, es, errors, marks'⟩ := R.resolveAll_adds
  rw [errors, List.filterMap_append, marks, List.nil_append]
  exact filterMap_of_map_eq marks'

open Classical in
theorem rooted_eq_filter (R : Registry) :
    R.rooted = R.assets.entries.filter fun a => R.schema.Rooted a.name := by
  apply List.filter_congr
  intro a ha
  rw [Bool.eq_iff_iff, decide_eq_true_iff, ← isBroken_eq_false_iff_of_mem ha]
  simp

open Classical in
/-- What is reported of the steps of a registry can be read off the registry with its results. -/
theorem missed_withProgress (R : Registry) (p : Progress) :
    (R.rootedSteps.flatMap fun x => x.2.missed R.schema x.1) =
      ((R.withProgress p).assets.entries.filter fun a => R.schema.Rooted a.name).flatMap
        fun a => a.steps.entries.flatMap fun s => s.missed R.schema a.name := by
  have steps : ∀ a : AssetEntry,
      ((a.withResults p).steps.entries.flatMap fun s => s.missed R.schema a.name) =
        a.steps.entries.flatMap fun s => s.missed R.schema a.name := by
    intro a
    change (a.steps.entries.map _).flatMap _ = _
    rw [List.flatMap_map]
    simp only [AssetEntry.missed_targetStep]
  change _ = ((R.assets.entries.map (AssetEntry.withResults p)).filter _).flatMap _
  rw [List.filter_map, List.flatMap_map, rootedSteps, rooted_eq_filter, List.flatMap_assoc]
  apply List.flatMap_congr
  intro a _
  rw [List.flatMap_map]
  exact (steps a).symm

end Registry

/-! ### Analyses -/

namespace Analysis

variable {s : Declared}

theorem mem_withFields {R : Registry} {a : AssetEntry} (h : a ∈ R.withFields.1.assets.entries) :
    ∃ b ∈ R.assets.entries, b.widen (R.placeable R.associations) = a := by
  rw [Registry.withFields_fst] at h
  exact List.mem_map.mp h

/-- Placing fields yields no results. -/
theorem unresolved_withFields {R : Registry} (h : ∀ a ∈ R.assets.entries, a.Unresolved) :
    ∀ a ∈ R.withFields.1.assets.entries, a.Unresolved := by
  intro a ha
  obtain ⟨b, hb, rfl⟩ := mem_withFields ha
  exact ⟨(h b hb).target, (h b hb).required, (h b hb).reached⟩

/-- Where no asset had fields, those that are placed lead to declared assets. -/
theorem asset_of_field_withFields {R : Registry} (h : ∀ a ∈ R.assets.entries, a.fields = .empty)
    {n x t : String} (field : R.withFields.1.schema.field n x t) :
    R.withFields.1.schema.asset t := by
  rw [Registry.withFields_fst] at field ⊢
  rw [Registry.schema_widen_asset]
  rcases Registry.schema_widen_field field with ⟨a, ha, f, hf, _⟩ | ⟨f, hf, _, _, rfl⟩
  · rw [h a (Registry.mem_of_asset? ha)] at hf
    cases hf
  · exact (Registry.asset_target_of_mem_placeable hf).2

theorem errors_ofDeclared (s : Declared) :
    let R := s.registry.withFields.1
    (ofDeclared s).errors =
      s.errors ++ R.requiredDefineErrors ++ R.extensionErrors ++ s.registry.withFields.2 ++
        R.inheritedFieldErrors ++ R.remarkErrors ++ R.stepErrors ++ R.inheritedVariableErrors ++
        R.resolveAll.errors := rfl

/-- All errors but those of resolving are apart from clauses. -/
theorem apart_ofDeclared (apart : Apart s.errors) :
    ∃ es, Apart es ∧
      (ofDeclared s).errors = es ++ s.registry.withFields.1.resolveAll.errors := by
  refine ⟨_, ?_, errors_ofDeclared s⟩
  refine Only.append ?_ (Registry.apart_inheritedVariableErrors _)
  refine Only.append ?_ (Registry.apart_stepErrors _)
  refine Only.append ?_ (Registry.apart_remarkErrors _)
  refine Only.append ?_ (Registry.apart_inheritedFieldErrors _)
  refine Only.append ?_ (Registry.apart_placeAssociations _ _)
  refine Only.append ?_ (Registry.apart_extensionErrors _)
  exact apart.append (Registry.apart_requiredDefineErrors _)

theorem unresolved_ofDeclared (apart : Apart s.errors) :
    (ofDeclared s).errors.filterMap SemanticError.unresolvedAt? =
      s.registry.withFields.1.resolveAll.errors.filterMap SemanticError.unresolvedAt? := by
  obtain ⟨es, apart, errors⟩ := apart_ofDeclared apart
  rw [errors, List.filterMap_append, apart.filterMap_eq_nil, List.nil_append]

/-- Resolving a registry without results yields an analysis that is complete. -/
theorem complete_ofDeclared (unresolved : ∀ a ∈ s.registry.assets.entries, a.Unresolved)
    (apart : Apart s.errors) : (ofDeclared s).Complete := by
  have unresolved' := unresolved_withFields unresolved
  have errors := unresolved_ofDeclared apart
  have registry : (ofDeclared s).registry =
      s.registry.withFields.1.withProgress s.registry.withFields.1.resolveAll := rfl
  generalize s.registry.withFields.1 = R at unresolved' errors registry
  have yields : ∀ a ∈ R.assets.entries, R.schema.Rooted a.name →
      ∀ t ∈ (a.withResults R.resolveAll).steps.entries,
        Yields (R.schema.HasType a.name) t.requiresExprs t.required ∧
          Yields (R.schema.LeadsTo a.name) t.reachesExprs t.reached :=
    fun a ha root t ht => AssetEntry.of_withResults ha root ht
  constructor
  all_goals rw [registry, Registry.schema_withProgress]
  case unresolved =>
    rw [errors, Registry.unresolved_resolveAll]
    exact R.missed_withProgress R.resolveAll
  all_goals
    intro b hb
    obtain ⟨a, ha, rfl⟩ := Registry.mem_withProgress.mp hb
    intro root
  case target => exact fun v hv T => AssetEntry.target_withResults ha (unresolved' a ha) root hv T
  case required => exact fun t ht => (yields a ha root t ht).1
  case reached => exact fun t ht => (yields a ha root t ht).2
  case broken => exact fun t ht => AssetEntry.empty_withResults (unresolved' a ha) root ht
  case counts =>
    intro t ht
    dsimp only
    rw [AssetEntry.missed_requires_length, AssetEntry.missed_reaches_length]
    exact ⟨(yields a ha root t ht).1.length_eq, (yields a ha root t ht).2.length_eq⟩

theorem closed_ofDeclared (fresh : ∀ a ∈ s.registry.assets.entries, a.Fresh) :
    (ofDeclared s).Closed := by
  have unresolved := unresolved_withFields fun a ha => (fresh a ha).toUnresolved
  have fields : ∀ {n x t}, s.registry.withFields.1.schema.field n x t →
      s.registry.withFields.1.schema.asset t :=
    asset_of_field_withFields fun a ha => (fresh a ha).fields
  have registry : (ofDeclared s).registry =
      s.registry.withFields.1.withProgress s.registry.withFields.1.resolveAll := rfl
  generalize s.registry.withFields.1 = R at unresolved fields registry
  constructor
  all_goals
    rw [registry, Registry.schema_withProgress]
    intro b hb
    obtain ⟨a, ha, rfl⟩ := Registry.mem_withProgress.mp hb
  case target =>
    intro v hv T ht
    obtain ⟨e, _, typed⟩ := AssetEntry.bindingType_of_target (unresolved a ha) hv ht
    exact typed.asset fields
  case required =>
    intro t ht
    by_cases root : R.schema.Rooted a.name
    · exact (AssetEntry.of_withResults ha root ht).1.forall fun _ _ typed => typed.asset fields
    · rw [(AssetEntry.empty_withResults (unresolved a ha) root ht).1]
      exact fun _ h => absurd h List.not_mem_nil
  case reached =>
    intro t ht
    by_cases root : R.schema.Rooted a.name
    · exact (AssetEntry.of_withResults ha root ht).2.forall fun _ _ leads =>
        leads.declared fields root.asset
    · rw [(AssetEntry.empty_withResults (unresolved a ha) root ht).2]
      exact fun _ h => absurd h List.not_mem_nil

end Analysis

namespace Analyzer

/-- The analysis of any files is complete, and refers to nothing that is not declared. -/
theorem finish_complete (fs : List Feed) :
    (empty.run fs).finish.Complete ∧ (empty.run fs).finish.Closed := by
  rw [finish_run]
  have fresh : ∀ a ∈ (Declared.of (empty.entities fs)).registry.assets.entries, a.Fresh :=
    fun _ => Declared.fresh_of_mem
  constructor
  · exact Analysis.complete_ofDeclared (fun a ha => (fresh a ha).toUnresolved)
      (Declared.apart_of _)
  · exact Analysis.closed_ofDeclared fresh

end Analyzer

end MetaAttack
