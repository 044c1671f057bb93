import MetaAttack.Proofs.Outcome
import MetaAttack.Proofs.Registered
import MetaAttack.Proofs.Resolved

/-!
# The verdict

The analysis of any files reports an error exactly if their declarations break a rule.

## Implementation notes

The checks read each other's results, so their lemmas come in the order of the rules: distinct names
make the registry hold every declaration, placed fields then make its facts those of the
declarations, and grounded chains make the checks that pass over assets without a root apply to all.
-/

namespace MetaAttack

/-! ### Remarks and defines -/

/-- Nothing is repeated exactly if no key stands twice, here or before. -/
theorem repeatedRemarks_eq_nil_iff {earlier rs : List Remark} :
    repeatedRemarks earlier rs = [] ↔
      (∀ r ∈ rs, ∀ e ∈ earlier, e.key.name ≠ r.key.name) ∧
        (rs.map fun r => r.key.name).Nodup := by
  induction rs generalizing earlier with
  | nil => simp [repeatedRemarks]
  | cons r rs ih =>
      rw [repeatedRemarks, List.map_cons, List.nodup_cons, List.forall_mem_cons]
      cases hfound : earlier.find? fun e => e.key.name = r.key.name with
      | some prior =>
          have same : prior.key.name = r.key.name := by simpa using List.find?_some hfound
          constructor
          · intro h
            cases h
          · exact fun h => absurd same (h.1.1 prior (List.mem_of_find?_eq_some hfound))
      | none =>
          have fresh : ∀ e ∈ earlier, e.key.name ≠ r.key.name := by
            simpa using List.find?_eq_none.mp hfound
          dsimp only
          rw [ih]
          constructor
          · rintro ⟨apart, nodup⟩
            refine ⟨⟨fresh, fun q hq e he => apart q hq e (List.mem_append_left _ he)⟩, ?_, nodup⟩
            intro hmem
            obtain ⟨q, hq, same⟩ := List.mem_map.mp hmem
            exact apart q hq r (List.mem_append_right _ (List.mem_singleton_self r)) same.symm
          · rintro ⟨⟨_, apart⟩, new, nodup⟩
            refine ⟨fun q hq e he => ?_, nodup⟩
            rcases List.mem_append.mp he with he | he
            · exact apart q hq e he
            · obtain rfl := List.mem_singleton.mp he
              exact fun same => new (List.mem_map.mpr ⟨q, hq, same.symm⟩)

namespace Registry

variable {R : Registry}

theorem remarkErrors_eq_nil_iff :
    R.remarkErrors = [] ↔ ∀ b ∈ R.remarks, (b.entries.map fun r => r.key.name).Nodup := by
  rw [remarkErrors, List.flatMap_eq_nil_iff]
  simp only [repeatedRemarks_eq_nil_iff, List.not_mem_nil, false_implies, implies_true, true_and]

/-- A required define is in order if it is there, has a value, and has a version where one is asked
for. -/
theorem defineErrors_eq_nil_iff {key : String} :
    R.defineErrors key = [] ↔
      ∃ d, R.defines.find? key = some d ∧ d.value ≠ "" ∧
        (key = "version" → IsVersion d.value) := by
  rw [defineErrors]
  cases R.defines.find? key with
  | none => simp
  | some d =>
      simp only [Option.some.injEq, exists_eq_left', ← isPlainVersion_iff]
      by_cases hv : d.value = ""
      · simp [hv]
      · by_cases hk : key = "version" <;> simp [hv, hk]

/-- Where all chains have a root, the checks of steps find nothing exactly if no step is wrong by
itself or overrides wrongly. -/
theorem stepErrors_eq_nil_iff (rooted : ∀ n, R.schema.asset n → R.schema.Rooted n) :
    R.stepErrors = [] ↔
      (∀ a ∈ R.assets.entries, ∀ s ∈ a.steps.entries,
        s.overrideErrors (R.strictAncestors a.name) = []) ∧
      ∀ a ∈ R.assets.entries, ∀ s ∈ a.steps.entries,
        s.existenceErrors ++ s.classificationErrors a.name ++ s.ttcErrors a.name = [] := by
  have unbroken : ∀ a ∈ R.assets.entries, R.isBroken a.name = false := by
    intro a ha
    rw [isBroken_eq_false_iff_of_mem ha]
    exact rooted a.name ⟨a, asset?_name_of_mem ha⟩
  simp only [stepErrors, stepErrorsOf, List.flatMap_eq_nil_iff, List.append_assoc]
  constructor
  · intro h
    constructor
    · intro a ha s hs
      have := h a ha s hs
      rw [unbroken a ha, List.append_eq_nil_iff] at this
      exact this.1
    · intro a ha s hs
      exact (List.append_eq_nil_iff.mp (h a ha s hs)).2
  · rintro ⟨overrides, others⟩ a ha s hs
    rw [unbroken a ha, List.append_eq_nil_iff]
    exact ⟨overrides a ha s hs, others a ha s hs⟩

/-- Where all chains have a root, resolving reports nothing exactly if every variable is typed and
no expression of a clause is missed. -/
theorem resolveAll_errors_of_rooted (rooted : ∀ n, R.schema.asset n → R.schema.Rooted n) :
    R.resolveAll.errors = [] ↔
      (∀ n x e, R.schema.binding n x e → ∃ T, R.schema.HasType n e T) ∧
        ∀ n x s, R.StepAt n x s → s.missed R.schema n = [] := by
  have root : ∀ a ∈ R.assets.entries, R.schema.Rooted a.name := fun a ha =>
    rooted a.name ⟨a, asset?_name_of_mem ha⟩
  rw [resolveAll_errors_eq_nil_iff,
    ← forall_bindings_iff (Q := fun n e => ∃ T, R.schema.HasType n e T),
    ← forall_steps_iff (Q := fun n s => s.missed R.schema n = [])]
  constructor
  · rintro ⟨bindings, steps⟩
    exact ⟨fun a ha => bindings a ha (root a ha), fun a ha => steps a ha (root a ha)⟩
  · rintro ⟨bindings, steps⟩
    exact ⟨fun a ha _ => bindings a ha, fun a ha _ => steps a ha⟩

end Registry

namespace StepEntry

variable {S : Schema} {n : String} {s : AttackStep}

/-- A step misses nothing exactly if what it requires has a type and what it reaches is a step. -/
theorem missed_ofStep_eq_nil_iff :
    (ofStep s).missed S n = [] ↔
      (∀ r, s.requires = some r → ∀ e ∈ r.exprs, ∃ T, S.HasType n e T) ∧
        ∀ r, s.reaches = some r → ∀ e ∈ r.exprs, ∃ ref, S.LeadsTo n e ref := by
  rw [missed_eq_nil_iff]
  change (∀ e ∈ s.requires.elim [] Requires.exprs, _) ∧ (∀ e ∈ s.reaches.elim [] Reaches.exprs, _) ↔
    _
  cases s.requires <;> cases s.reaches <;> simp

end StepEntry

/-! ### Checks and rules -/

variable {es : List Entity}

theorem NamesDistinct.remarkErrors_of (names : NamesDistinct es) :
    (Declared.of es).registry.remarkErrors = [] ↔
      ∀ rs ∈ es.flatMap Entity.remarkLists, (rs.map fun r => r.key.name).Nodup := by
  rw [Registry.remarkErrors_eq_nil_iff, Declared.of,
    Declared.remarks_foldl_enter (P := fun rs => (rs.map fun r => r.key.name).Nodup) List.nodup_nil
      (errors_of_eq_nil_iff.mpr names)]
  simp [Declared.empty, Registry.empty]

theorem NamesDistinct.requiredDefineErrors_of (names : NamesDistinct es) :
    (Declared.of es).registry.requiredDefineErrors = [] ↔ Identified es := by
  have found : ∀ key (P : String → Prop),
      (∃ d, (Declared.of es).registry.defines.find? key = some d ∧ P d.value) ↔
        ∃ d ∈ MetaAttack.defines es, d.key.name = key ∧ P d.value := by
    intro key P
    simp only [Table.find?_eq_some_iff, names.defines_entries]
    constructor
    · rintro ⟨_, ⟨hmem, hk⟩, hP⟩
      obtain ⟨d, hd, rfl⟩ := List.mem_map.mp hmem
      exact ⟨d, hd, hk, hP⟩
    · rintro ⟨d, hd, hk, hP⟩
      exact ⟨.ofDefine d, ⟨List.mem_map_of_mem hd, hk⟩, hP⟩
  rw [Registry.requiredDefineErrors, List.append_eq_nil_iff, Registry.defineErrors_eq_nil_iff,
    Registry.defineErrors_eq_nil_iff,
    found "id" fun v => v ≠ "" ∧ ("id" = "version" → IsVersion v),
    found "version" fun v => v ≠ "" ∧ ("version" = "version" → IsVersion v)]
  constructor
  · rintro ⟨⟨d, hd, hk, hne, _⟩, ⟨e, he, hv, hne', version⟩⟩
    exact ⟨⟨d, hd, hk, hne⟩, ⟨e, he, hv, hne', version rfl⟩⟩
  · rintro ⟨⟨d, hd, hk, hne⟩, ⟨e, he, hv, hne', version⟩⟩
    exact ⟨⟨d, hd, hk, hne, by simp⟩, ⟨e, he, hv, hne', fun _ => version⟩⟩

/-! ### Rules on what is inherited -/

namespace FieldsPlaced

variable (names : NamesDistinct es) (placed : FieldsPlaced es)

include names placed

theorem remarkErrors_of :
    (Declared.of es).registry.withFields.1.remarkErrors = [] ↔
      ∀ rs ∈ es.flatMap Entity.remarkLists, (rs.map fun r => r.key.name).Nodup := by
  rw [placed.withFields_fst names]
  exact names.remarkErrors_of

theorem requiredDefineErrors_of :
    (Declared.of es).registry.withFields.1.requiredDefineErrors = [] ↔ Identified es := by
  rw [placed.withFields_fst names]
  exact names.requiredDefineErrors_of

/-- Parents are declared and nothing is on a loop. -/
theorem extensionErrors_of :
    (Declared.of es).registry.withFields.1.extensionErrors = [] ↔ Grounded es := by
  rw [Registry.extensionErrors, List.append_eq_nil_iff, Registry.parentErrors_eq_nil_iff,
    Registry.loopErrors_eq_nil_iff, placed.schema_withFields names]
  constructor
  · rintro ⟨parents, acyclic⟩
    exact ⟨parents, acyclic⟩
  · rintro ⟨parents, acyclic⟩
    exact ⟨parents, acyclic⟩

/-- Where the declarations are grounded, all chains of the registry have a root. -/
theorem rooted_of (grounded : Grounded es) {n : String} (known : (schemaOf es).asset n) :
    (schemaOf es).Rooted n := by
  have schema := placed.schema_withFields names
  rw [← schema] at known ⊢
  apply Registry.rooted_of_wellFounded _ _ known
  · rw [schema]
    exact grounded.parents
  · rw [schema]
    exact grounded.acyclic

/-- Where nothing is broken, this is what is left of the rule for fields. -/
theorem inheritedFieldErrors_of (grounded : Grounded es) :
    (Declared.of es).registry.withFields.1.inheritedFieldErrors = [] ↔ FieldsSound es := by
  rw [Registry.inheritedFieldErrors_eq_nil_iff, placed.schema_withFields names]
  constructor
  · intro h
    refine ⟨placed, fun n m x t u path field => ?_⟩
    have known := path.asset (placed.coherent names)
    exact h n (placed.rooted_of names grounded known) m x t u path field
  · exact fun sound n _ => sound.notInherited n

/-- The steps of the checked registry are those declared. -/
theorem stepAt_withFields {n x : String} {s : StepEntry} :
    (Declared.of es).registry.withFields.1.StepAt n x s ↔
      ∃ t, DeclaresStep es n t ∧ t.name.name = x ∧ .ofStep t = s := by
  rw [placed.withFields_fst names]
  exact (Registry.exists_asset?_widen (P := fun a => a.steps.find? x = some s)).trans
    names.stepAt_iff

theorem rooted_withFields (grounded : Grounded es) (n : String) :
    (Declared.of es).registry.withFields.1.schema.asset n →
      (Declared.of es).registry.withFields.1.schema.Rooted n := by
  rw [placed.schema_withFields names]
  exact placed.rooted_of names grounded

/-- The checks of steps come to the rule for steps. -/
theorem stepErrors_of (grounded : Grounded es) :
    (Declared.of es).registry.withFields.1.stepErrors = [] ↔ StepsSound es := by
  have rooted := placed.rooted_withFields names grounded
  rw [Registry.stepErrors_eq_nil_iff rooted, Registry.overrides_iff rooted,
    Registry.forall_steps_iff (Q := fun n s =>
      s.existenceErrors ++ s.classificationErrors n ++ s.ttcErrors n = []),
    placed.schema_withFields names]
  simp only [placed.stepAt_withFields names]
  constructor
  · rintro ⟨⟨appends, kinds⟩, legal⟩
    constructor
    · exact fun n s hs => StepEntry.errors_ofStep_eq_nil_iff.mp (legal n _ _ ⟨s, hs, rfl, rfl⟩)
    · exact fun n s hs => appends n _ _ ⟨s, hs, rfl, rfl⟩
    · exact fun n m s t path hs ht same =>
        kinds n m _ _ _ path ⟨s, hs, same, rfl⟩ ⟨t, ht, rfl, rfl⟩
  · intro sound
    constructor
    · constructor
      · rintro n x _ ⟨s, hs, rfl, rfl⟩
        exact sound.appends n s hs
      · rintro n m x _ _ path ⟨s, hs, rfl, rfl⟩ ⟨t, ht, same, rfl⟩
        exact sound.kinds n m s t path hs ht same.symm
    · rintro n x _ ⟨s, hs, rfl, rfl⟩
      exact StepEntry.errors_ofStep_eq_nil_iff.mpr (sound.legal n s hs)

/-- Resolving and the check of inherited variables find nothing exactly if the expressions are
sound. -/
theorem expressionErrors_of (grounded : Grounded es) :
    (Declared.of es).registry.withFields.1.inheritedVariableErrors = [] ∧
        (Declared.of es).registry.withFields.1.resolveAll.errors = [] ↔
      ExpressionsSound es := by
  rw [Registry.inheritedVariableErrors_eq_nil_iff,
    Registry.resolveAll_errors_of_rooted (placed.rooted_withFields names grounded),
    placed.schema_withFields names]
  simp only [placed.stepAt_withFields names]
  constructor
  · rintro ⟨fresh, bindings, steps⟩
    have clauses : ∀ n s, DeclaresStep es n s → _ := fun n s hs =>
      StepEntry.missed_ofStep_eq_nil_iff.mp (steps n _ _ ⟨s, hs, rfl, rfl⟩)
    constructor
    · intro n m x d e path
      have known := path.asset (placed.coherent names)
      exact fresh n (placed.rooted_of names grounded known) m x d e path
    · exact bindings
    · exact fun n s r hs => (clauses n s hs).1 r
    · exact fun n s r hs => (clauses n s hs).2 r
  · intro sound
    refine ⟨fun n _ => sound.notInherited n, sound.bindings, ?_⟩
    rintro n x _ ⟨s, hs, rfl, rfl⟩
    rw [StepEntry.missed_ofStep_eq_nil_iff]
    exact ⟨fun r => sound.requires n s r hs, fun r => sound.reaches n s r hs⟩

end FieldsPlaced

/-! ### The verdict -/

/-- The analysis of what is declared has no error exactly if the declarations are well formed. -/
theorem errors_ofDeclared_eq_nil_iff :
    (Analysis.ofDeclared (.of es)).errors = [] ↔ WellFormed es := by
  rw [Analysis.errors_ofDeclared]
  simp only [List.append_eq_nil_iff, and_assoc, errors_of_eq_nil_iff]
  refine ⟨?_, ?_⟩
  · rintro ⟨names, defines, extensions, fields, inherited, remarks, steps, expressions⟩
    have placed := (withFields_of_errors names).mp fields
    have grounded := (placed.extensionErrors_of names).mp extensions
    constructor
    case names => exact names
    case remarks => exact (placed.remarkErrors_of names).mp remarks
    case identified => exact (placed.requiredDefineErrors_of names).mp defines
    case grounded => exact grounded
    case fields => exact (placed.inheritedFieldErrors_of names grounded).mp inherited
    case steps => exact (placed.stepErrors_of names grounded).mp steps
    case expressions => exact (placed.expressionErrors_of names grounded).mp expressions
  · rintro ⟨names, remarks, identified, grounded, fields, steps, expressions⟩
    have placed := fields.toFieldsPlaced
    exact ⟨names, (placed.requiredDefineErrors_of names).mpr identified,
      (placed.extensionErrors_of names).mpr grounded, (withFields_of_errors names).mpr placed,
      (placed.inheritedFieldErrors_of names grounded).mpr fields,
      (placed.remarkErrors_of names).mpr remarks,
      (placed.stepErrors_of names grounded).mpr steps,
      (placed.expressionErrors_of names grounded).mpr expressions⟩

/-- Check by check, no error is exactly the rule that the check is for. -/
theorem hasError_ofDeclared_eq_false_iff :
    (Analysis.ofDeclared (.of es)).hasError = false ↔ WellFormed es := by
  rw [← errors_ofDeclared_eq_nil_iff, Analysis.hasError, Bool.not_eq_false', List.isEmpty_iff]

namespace Analyzer

/-- Whatever files an analyzer takes in, its analysis has no error exactly if what they declare is
well formed. -/
theorem hasError_finish_eq_false_iff (fs : List Feed) :
    (empty.run fs).finish.hasError = false ↔ WellFormed (empty.entities fs) := by
  rw [finish_run, hasError_ofDeclared_eq_false_iff]

end Analyzer

end MetaAttack
