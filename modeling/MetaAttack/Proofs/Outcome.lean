import MetaAttack.Proofs.Results

/-!
# When resolving reports nothing

A variable that fails again is not reported again, so it could seem that a failure goes unreported.
It does not: the first failure has a cause, and up to it no failure is remembered. Resolving reports
nothing exactly if every variable and every expression of a clause yields a result, of the assets
that have a root.
-/

namespace MetaAttack

namespace Registry

variable {R : Registry}

/-- From a memory without failures, a variable adds no error exactly if it has a type, and then it
leaves no failure behind. -/
theorem resolveVariable_errors (asset : String) (v : VariableEntry) {p : Progress}
    (faithful : p.memo.Faithful R []) (clean : p.memo.Clean) :
    let q := R.resolveVariable asset p v
    ∃ es, q.errors = p.errors ++ es ∧
      (es = [] ↔ ∃ T, R.schema.BindingType asset v.name T) ∧ (es = [] → q.memo.Clean) := by
  obtain ⟨exact, _⟩ := answers_resolve (q := .binding (.idle p.memo) ⟨asset, v.name⟩ v.span) rfl
    faithful
  have caused := resolve_caused (R := R) (.binding (.idle p.memo) ⟨asset, v.name⟩ v.span) clean
  refine ⟨_, rfl, ?_⟩
  change (_ ∧ (_ → (R.typeOfVariable [] p.memo ⟨asset, v.name⟩ v.span).memo.Clean))
  cases hr : (R.typeOfVariable [] p.memo ⟨asset, v.name⟩ v.span).result with
  | ok T => exact ⟨⟨fun _ => ⟨T, (exact T).mp hr⟩, fun _ => rfl⟩, fun _ => caused.clean hr⟩
  | error causes =>
      have reported : causes.map SemanticError.resolve ≠ [] := by simpa using caused.ne_nil hr
      refine ⟨⟨fun h => absurd h reported, ?_⟩, fun h => absurd h reported⟩
      rintro ⟨T, typed⟩
      exact absurd typed (exact.not_of_error hr T)

theorem foldl_resolveVariable_errors (xs : List (String × VariableEntry)) {p : Progress}
    (faithful : p.memo.Faithful R []) (clean : p.memo.Clean) :
    let q := xs.foldl (fun p x => R.resolveVariable x.1 p x.2) p
    ∃ es, q.errors = p.errors ++ es ∧
      (es = [] ↔ ∀ x ∈ xs, ∃ T, R.schema.BindingType x.1 x.2.name T) := by
  induction xs generalizing p with
  | nil => exact ⟨[], by simp⟩
  | cons x xs ih =>
      obtain ⟨grows, _⟩ := resolveVariable_adds R x.1 x.2 faithful
      obtain ⟨es, errors, typed, clean'⟩ := resolveVariable_errors x.1 x.2 faithful clean
      dsimp only
      rw [List.foldl_cons]
      by_cases hes : es = []
      · obtain ⟨fs, errors', typed'⟩ := ih grows.faithful (clean' hes)
        refine ⟨fs, ?_, typed'.trans ?_⟩
        · rw [errors', errors, hes, List.append_nil]
        · rw [List.forall_mem_cons]
          exact (and_iff_right (typed.mp hes)).symm
      · obtain ⟨_, _, _, fs, errors', _⟩ := foldl_resolveVariable_adds R xs grows.faithful
        refine ⟨es ++ fs, ?_, ?_⟩
        · rw [errors', errors, List.append_assoc]
        · rw [List.append_eq_nil_iff, List.forall_mem_cons]
          exact ⟨fun h => absurd h.1 hes, fun h => absurd (typed.mpr h.1) hes⟩

theorem mem_rootedBindings {y : String × VariableEntry} :
    y ∈ R.rootedBindings ↔
      ∃ a ∈ R.assets.entries, R.schema.Rooted a.name ∧
        ∃ v ∈ a.bindings.entries, (a.name, v) = y := by
  simp only [rootedBindings, List.mem_flatMap, List.mem_map, mem_rooted_iff, and_assoc]

/-- Resolving reports nothing exactly if all variables of the assets that have a root are typed and
all expressions of their clauses resolve. -/
theorem resolveAll_errors_eq_nil_iff :
    R.resolveAll.errors = [] ↔
      (∀ a ∈ R.assets.entries, R.schema.Rooted a.name → ∀ v ∈ a.bindings.entries,
        ∃ T, R.schema.HasType a.name v.expr T) ∧
      ∀ a ∈ R.assets.entries, R.schema.Rooted a.name → ∀ s ∈ a.steps.entries,
        s.missed R.schema a.name = [] := by
  obtain ⟨es, errors, typed⟩ :=
    foldl_resolveVariable_errors (R := R) R.rootedBindings (p := ⟨.empty, [], []⟩)
      (Memo.faithful_empty R) Memo.clean_empty
  obtain ⟨_, _, fs, errors', marks⟩ := R.resolveAll_adds
  change R.variablesProgress.errors = [] ++ es at errors
  have reported : fs = [] ↔ ∀ y ∈ R.rootedSteps, y.2.missed R.schema y.1 = [] := by
    rw [← List.map_eq_nil_iff (f := SemanticError.unresolvedAt?), marks, List.map_eq_nil_iff,
      List.flatMap_eq_nil_iff]
  rw [errors', errors, List.nil_append, List.append_eq_nil_iff, typed, reported]
  refine and_congr ?_ ?_
  · constructor
    · intro h a ha root v hv
      obtain ⟨T, bound⟩ := h (a.name, v) (mem_rootedBindings.mpr ⟨a, ha, root, v, hv, rfl⟩)
      exact ⟨T, (bindingType_iff (declaredVariable?_of_mem ha hv)).mp bound⟩
    · intro h y hy
      obtain ⟨a, ha, root, v, hv, rfl⟩ := mem_rootedBindings.mp hy
      obtain ⟨T, bound⟩ := h a ha root v hv
      exact ⟨T, (bindingType_iff (declaredVariable?_of_mem ha hv)).mpr bound⟩
  · constructor
    · exact fun h a ha root s hs => h (a.name, s) (mem_rootedSteps.mpr ⟨a, ha, root, s, hs, rfl⟩)
    · intro h y hy
      obtain ⟨a, ha, root, s, hs, rfl⟩ := mem_rootedSteps.mp hy
      exact h a ha root s hs

end Registry

end MetaAttack
