import Mathlib.Data.List.Forall2
import MetaAttack.Proofs.Memory
import MetaAttack.Typing.Clauses

/-!
# Resolving, question by question

Resolving a registry asks for its variables and then for the expressions of its steps. Each question
adds to the memory, to the targets and to the errors, and what it adds is given here in terms of the
typing relation.

## Implementation notes

The two passes go over the assets and, within an asset, over its members. They are folds over the
members with the names of their assets, and the lemmas are stated for any list of those.
-/

namespace MetaAttack

open Classical in
/-- The expressions that yield something. -/
noncomputable def fruitful {α : Type} (P : Expr → α → Prop) (es : List Expr) : List Expr :=
  es.filter fun e => ∃ t, P e t

open Classical in
/-- The expressions that yield nothing. -/
noncomputable def fruitless {α : Type} (P : Expr → α → Prop) (es : List Expr) : List Expr :=
  es.filter fun e => ¬ ∃ t, P e t

/-- The results are those of the expressions that yield something, in order. -/
def Yields {α : Type} (P : Expr → α → Prop) (es : List Expr) (ts : List α) : Prop :=
  List.Forall₂ P (fruitful P es) ts

section Yields

variable {α : Type} {P : Expr → α → Prop} {e : Expr} {es : List Expr} {t : α} {ts us : List α}

theorem fruitful_cons_of_yields (h : P e t) : fruitful P (e :: es) = e :: fruitful P es := by
  rw [fruitful, List.filter_cons_of_pos]
  · rfl
  · simpa using ⟨t, h⟩

theorem fruitful_cons_of_not (h : ∀ t, ¬ P e t) : fruitful P (e :: es) = fruitful P es := by
  rw [fruitful, List.filter_cons_of_neg]
  · rfl
  · simpa using h

theorem fruitless_cons_of_yields (h : P e t) : fruitless P (e :: es) = fruitless P es := by
  rw [fruitless, List.filter_cons_of_neg]
  · rfl
  · simpa using ⟨t, h⟩

theorem fruitless_cons_of_not (h : ∀ t, ¬ P e t) :
    fruitless P (e :: es) = e :: fruitless P es := by
  rw [fruitless, List.filter_cons_of_pos]
  · rfl
  · simpa using h

/-- Nothing is missed exactly if every expression leads somewhere. -/
theorem fruitless_eq_nil_iff : fruitless P es = [] ↔ ∀ e ∈ es, ∃ t, P e t := by
  simp [fruitless]

theorem Yields.nil : Yields P [] ([] : List α) := List.Forall₂.nil

theorem Yields.found (h : P e t) (rest : Yields P es ts) : Yields P (e :: es) (t :: ts) := by
  rw [Yields, fruitful_cons_of_yields h]
  exact .cons h rest

theorem Yields.missed (h : ∀ t, ¬ P e t) (rest : Yields P es ts) : Yields P (e :: es) ts := by
  rw [Yields, fruitful_cons_of_not h]
  exact rest

open Classical in
/-- Every expression yields a result or nothing. -/
theorem Yields.length_eq (h : Yields P es ts) :
    es.length = ts.length + (fruitless P es).length := by
  rw [← List.Forall₂.length_eq h, fruitful, fruitless]
  simpa only [decide_not] using
    List.length_eq_length_filter_add (l := es) fun e => decide (∃ t, P e t)

/-- What a list of expressions yields is determined where each one is. -/
theorem Yields.unique (hP : ∀ e t u, P e t → P e u → t = u) (h : Yields P es ts)
    (h' : Yields P es us) : ts = us :=
  List.right_unique_forall₂' (fun {e t u} ht hu => hP e t u ht hu) h h'

/-- Where every result has a property, so have those yielded. -/
theorem Yields.forall {Q : α → Prop} (hP : ∀ e t, P e t → Q t) (h : Yields P es ts) :
    ∀ t ∈ ts, Q t := by
  rw [Yields] at h
  generalize fruitful P es = ds at h
  induction h with
  | nil => simp
  | cons h _ ih => exact List.forall_mem_cons.mpr ⟨hP _ _ h, ih⟩

end Yields

/-! ### The memory grows -/

/-- The later memory is faithful and knows what the earlier one knew. -/
structure Memo.Grows (R : Registry) (m m' : Memo) : Prop where
  faithful : m'.Faithful R []
  keys : m.keys ⊆ m'.keys

/-- A memory stays faithful and only grows. -/
theorem Memo.Grows.trans {R : Registry} {m₁ m₂ m₃ : Memo} (h : m₁.Grows R m₂)
    (h' : m₂.Grows R m₃) : m₁.Grows R m₃ :=
  ⟨h'.faithful, List.Subset.trans h.keys h'.keys⟩

theorem Memo.Grows.refl {R : Registry} {m : Memo} (h : m.Faithful R []) : m.Grows R m :=
  ⟨h, List.Subset.refl _⟩

/-- The clause and the place of an expression that is reported not to resolve. -/
def SemanticError.unresolvedAt? : SemanticError → Option (Clause × Span)
  | .unresolved _ clause span => some (clause, span)
  | _ => none

variable {R : Registry} {α : Type}

/-- What is expected of a function that answers questions about expressions. -/
def Answers (R : Registry) (resolve : Memo → Expr → Resolution α × Memo)
    (P : Expr → α → Prop) : Prop :=
  ∀ m e, m.Faithful R [] → (resolve m e).1.Exact (P e) ∧ m.Grows R (resolve m e).2

/-- From a faithful memory the resolver answers a task exactly, and its memory grows. -/
theorem Registry.answers_resolve {m : Memo} {q : Task} (hq : q.state = .idle m)
    (faithful : m.Faithful R []) :
    (R.resolve q).result.Exact (R.Means q) ∧ m.Grows R (R.resolve q).state.memo := by
  have keys := (R.grows_resolve q).keys
  rw [hq] at keys
  obtain ⟨exact, faithful'⟩ : (R.resolve q).result.Exact (R.Means q) ∧
      (R.resolve q).state.memo.Faithful R [] := by
    apply resolve_exact_of_idle
    · rw [hq]
      rfl
    · rw [Task.known, hq]
      exact faithful
  exact ⟨exact, faithful', keys⟩

/-- Types are answered faithfully from any faithful memory. -/
theorem typeOf_answers (R : Registry) (C : String) :
    Answers R (fun m e => ((R.typeOf [] m C e).result, (R.typeOf [] m C e).memo))
      (R.schema.HasType C) :=
  fun _ _ faithful => Registry.answers_resolve rfl faithful

theorem stepOf_answers (R : Registry) (C : String) :
    Answers R (fun m e => ((R.stepOf m C e).result, (R.stepOf m C e).memo))
      (R.schema.LeadsTo C) :=
  fun _ _ faithful => Registry.answers_resolve rfl faithful

/-- The expressions of a clause are answered one by one, and each that yields nothing is one
error. -/
theorem resolveEach_yields {resolve : Memo → Expr → Resolution α × Memo} {P : Expr → α → Prop}
    (answers : Answers R resolve P) (clause : Clause) (span : Span) {m : Memo}
    (faithful : m.Faithful R []) (es : List Expr) :
    let x := resolveEach resolve (.unresolved · clause span) m es
    m.Grows R x.1 ∧ Yields P es x.2.1 ∧
      x.2.2.map SemanticError.unresolvedAt? =
        (fruitless P es).map fun _ => some (clause, span) := by
  induction es generalizing m with
  | nil => exact ⟨.refl faithful, .nil, by simp [resolveEach, fruitless]⟩
  | cons e es ih =>
      obtain ⟨exact, grows⟩ := answers m e faithful
      obtain ⟨grows', yields, errors⟩ := ih grows.faithful
      dsimp only
      rw [resolveEach]
      dsimp only
      cases hr : (resolve m e).1 with
      | ok t =>
          have found := (exact t).mp hr
          refine ⟨grows.trans grows', yields.found found, ?_⟩
          rw [fruitless_cons_of_yields found]
          exact errors
      | error causes =>
          have missed : ∀ t, ¬ P e t := by
            intro t ht
            rw [(exact t).mpr ht] at hr
            cases hr
          refine ⟨grows.trans grows', yields.missed missed, ?_⟩
          rw [fruitless_cons_of_not missed, List.map_cons, List.map_cons, errors]
          rfl

/-! ### Steps -/

namespace StepEntry

/-- The expressions of what is required, if there are any. -/
def requiresExprs (s : StepEntry) : List Expr := s.requires.elim [] Requires.exprs

/-- The expressions of what is reached, if there are any. -/
def reachesExprs (s : StepEntry) : List Expr := s.reaches.elim [] Reaches.exprs

/-- What has to be reported of the clauses of a step: the clause and its place, once for each
expression that yields nothing. -/
noncomputable def missed (S : Schema) (asset : String) (s : StepEntry) : List (Clause × Span) :=
  (s.requires.elim [] fun c =>
    (fruitless (S.HasType asset) c.exprs).map fun _ => (.requires, c.span)) ++
  (s.reaches.elim [] fun c =>
    (fruitless (S.LeadsTo asset) c.exprs).map fun _ => (c.clause, c.span))

/-- A step misses nothing exactly if each of its expressions resolves. -/
theorem missed_eq_nil_iff {S : Schema} {asset : String} {s : StepEntry} :
    s.missed S asset = [] ↔
      (∀ e ∈ s.requiresExprs, ∃ T, S.HasType asset e T) ∧
        ∀ e ∈ s.reachesExprs, ∃ r, S.LeadsTo asset e r := by
  rw [missed, List.append_eq_nil_iff, requiresExprs, reachesExprs]
  refine and_congr ?_ ?_
  · cases s.requires with
    | none => simp
    | some c => simp [fruitless_eq_nil_iff]
  · cases s.reaches with
    | none => simp
    | some c => simp [fruitless_eq_nil_iff]

end StepEntry

/-- The targets are what the clauses of the step of the asset lead to. -/
structure StepTargets.Of (S : Schema) (asset : String) (s : StepEntry) (t : StepTargets) :
    Prop where
  step : t.step = ⟨asset, s.name⟩
  required : Yields (S.HasType asset) s.requiresExprs t.required
  reached : Yields (S.LeadsTo asset) s.reachesExprs t.reached

theorem StepTargets.Of.unique {S : Schema} (hS : S.Coherent) {asset : String} {s : StepEntry}
    {t u : StepTargets} (ht : t.Of S asset s) (hu : u.Of S asset s) : t = u := by
  have required : t.required = u.required :=
    Yields.unique (fun _ _ _ h h' => h.unique hS h') ht.required hu.required
  have reached : t.reached = u.reached :=
    Yields.unique (fun _ _ _ h h' => h.unique hS h') ht.reached hu.reached
  calc t
    _ = ⟨⟨asset, s.name⟩, t.required, t.reached⟩ := by rw [← ht.step]
    _ = ⟨⟨asset, s.name⟩, u.required, u.reached⟩ := by rw [required, reached]
    _ = u := by rw [← hu.step]

namespace Registry

/-- What the requires clause of a step adds. -/
def askRequires (R : Registry) (asset : String) (m : Memo) (s : StepEntry) :
    Memo × List String × List SemanticError :=
  match s.requires with
  | none => (m, [], [])
  | some c =>
      resolveEach (fun m e => ((R.typeOf [] m asset e).result, (R.typeOf [] m asset e).memo))
        (.unresolved · .requires c.span) m c.exprs

/-- What the reaches clause of a step adds. -/
def askReaches (R : Registry) (asset : String) (m : Memo) (s : StepEntry) :
    Memo × List StepRef × List SemanticError :=
  match s.reaches with
  | none => (m, [], [])
  | some c =>
      resolveEach (fun m e => ((R.stepOf m asset e).result, (R.stepOf m asset e).memo))
        (.unresolved · c.clause c.span) m c.exprs

/-- One step: what it requires first, then what it reaches, with the memory passed on. -/
theorem resolveStep_eq (R : Registry) (asset : String) (p : Progress) (s : StepEntry) :
    R.resolveStep asset p s =
      let x := R.askRequires asset p.memo s
      let y := R.askReaches asset x.1 s
      ⟨y.1, p.targets ++ [⟨⟨asset, s.name⟩, x.2.1, y.2.1⟩], p.errors ++ x.2.2 ++ y.2.2⟩ := rfl

theorem askRequires_yields (R : Registry) (asset : String) (s : StepEntry) {m : Memo}
    (faithful : m.Faithful R []) :
    let x := R.askRequires asset m s
    m.Grows R x.1 ∧ Yields (R.schema.HasType asset) s.requiresExprs x.2.1 ∧
      x.2.2.map SemanticError.unresolvedAt? = (s.requires.elim [] fun c =>
        (fruitless (R.schema.HasType asset) c.exprs).map fun _ => some (.requires, c.span)) := by
  rw [askRequires, StepEntry.requiresExprs]
  cases s.requires with
  | none => exact ⟨.refl faithful, .nil, rfl⟩
  | some c => exact resolveEach_yields (typeOf_answers R asset) .requires c.span faithful c.exprs

theorem askReaches_yields (R : Registry) (asset : String) (s : StepEntry) {m : Memo}
    (faithful : m.Faithful R []) :
    let x := R.askReaches asset m s
    m.Grows R x.1 ∧ Yields (R.schema.LeadsTo asset) s.reachesExprs x.2.1 ∧
      x.2.2.map SemanticError.unresolvedAt? = (s.reaches.elim [] fun c =>
        (fruitless (R.schema.LeadsTo asset) c.exprs).map fun _ => some (c.clause, c.span)) := by
  rw [askReaches, StepEntry.reachesExprs]
  cases s.reaches with
  | none => exact ⟨.refl faithful, .nil, rfl⟩
  | some c => exact resolveEach_yields (stepOf_answers R asset) c.clause c.span faithful c.exprs

/-- Resolving a step adds its targets, and the errors for the expressions that yield nothing. -/
theorem resolveStep_adds (R : Registry) (asset : String) (s : StepEntry) {p : Progress}
    (faithful : p.memo.Faithful R []) :
    let q := R.resolveStep asset p s
    p.memo.Grows R q.memo ∧
      (∃ t, t.Of R.schema asset s ∧ q.targets = p.targets ++ [t]) ∧
      ∃ es, q.errors = p.errors ++ es ∧
        es.map SemanticError.unresolvedAt? = (s.missed R.schema asset).map some := by
  obtain ⟨grows, required, errors⟩ := askRequires_yields R asset s faithful
  obtain ⟨grows', reached, errors'⟩ := askReaches_yields R asset s grows.faithful
  rw [resolveStep_eq]
  refine ⟨grows.trans grows', ⟨_, ⟨rfl, required, reached⟩, rfl⟩, _, List.append_assoc .., ?_⟩
  rw [List.map_append, errors, errors', StepEntry.missed, List.map_append]
  congr 1
  · cases s.requires <;> simp
  · cases s.reaches <;> simp

/-- Resolving steps adds the targets of each, and the errors of each, in order. -/
theorem foldl_resolveStep_adds (R : Registry) (xs : List (String × StepEntry)) {p : Progress}
    (faithful : p.memo.Faithful R []) :
    let q := xs.foldl (fun p x => R.resolveStep x.1 p x.2) p
    p.memo.Grows R q.memo ∧
      (∃ ts, List.Forall₂ (fun x t => StepTargets.Of R.schema x.1 x.2 t) xs ts ∧
        q.targets = p.targets ++ ts) ∧
      ∃ es, q.errors = p.errors ++ es ∧
        es.map SemanticError.unresolvedAt? =
          (xs.flatMap fun x => x.2.missed R.schema x.1).map some := by
  induction xs generalizing p with
  | nil => exact ⟨.refl faithful, ⟨[], .nil, by simp⟩, [], by simp⟩
  | cons x xs ih =>
      obtain ⟨grows, ⟨t, of, targets⟩, es, errors, marks⟩ := resolveStep_adds R x.1 x.2 faithful
      obtain ⟨grows', ⟨ts, ofs, targets'⟩, es', errors', marks'⟩ := ih grows.faithful
      dsimp only
      rw [List.foldl_cons]
      refine ⟨grows.trans grows', ⟨t :: ts, .cons of ofs, ?_⟩, es ++ es', ?_, ?_⟩
      · rw [targets', targets, List.append_assoc, List.singleton_append]
      · rw [errors', errors, List.append_assoc]
      · rw [List.map_append, marks, marks', List.flatMap_cons, List.map_append]

/-! ### Variables -/

/-- Works out one variable of an asset. -/
def resolveVariable (R : Registry) (asset : String) (p : Progress) (v : VariableEntry) : Progress :=
  R.resolveVariables asset p [v]

theorem resolveVariables_eq_foldl (R : Registry) (asset : String) (p : Progress)
    (vs : List VariableEntry) :
    R.resolveVariables asset p vs = vs.foldl (R.resolveVariable asset) p := by
  induction vs generalizing p with
  | nil => rfl
  | cons v vs ih => exact ih _

/-- Resolving a variable makes it known and adds no error of a clause. -/
theorem resolveVariable_adds (R : Registry) (asset : String) (v : VariableEntry) {p : Progress}
    (faithful : p.memo.Faithful R []) :
    let q := R.resolveVariable asset p v
    p.memo.Grows R q.memo ∧ q.targets = p.targets ∧
      ((R.declaredVariable? ⟨asset, v.name⟩).isSome → ⟨asset, v.name⟩ ∈ q.memo.keys) ∧
      ∃ es, q.errors = p.errors ++ es ∧ es.filterMap SemanticError.unresolvedAt? = [] := by
  obtain ⟨_, grows⟩ := answers_resolve (q := .binding (.idle p.memo) ⟨asset, v.name⟩ v.span) rfl
    faithful
  refine ⟨grows, rfl, fun h => ?_, _, rfl, ?_⟩
  · obtain ⟨w, hw⟩ := Option.isSome_iff_exists.mp h
    exact mem_keys_resolve hw (.idle p.memo) v.span
  · rw [List.filterMap_eq_nil_iff]
    intro e he
    split at he
    · cases he
    · obtain ⟨cause, _, rfl⟩ := List.mem_map.mp he
      rfl

theorem foldl_resolveVariable_adds (R : Registry) (xs : List (String × VariableEntry))
    {p : Progress} (faithful : p.memo.Faithful R []) :
    let q := xs.foldl (fun p x => R.resolveVariable x.1 p x.2) p
    p.memo.Grows R q.memo ∧ q.targets = p.targets ∧
      (∀ x ∈ xs, (R.declaredVariable? ⟨x.1, x.2.name⟩).isSome →
        ⟨x.1, x.2.name⟩ ∈ q.memo.keys) ∧
      ∃ es, q.errors = p.errors ++ es ∧ es.filterMap SemanticError.unresolvedAt? = [] := by
  induction xs generalizing p with
  | nil => exact ⟨.refl faithful, rfl, by simp, [], by simp⟩
  | cons x xs ih =>
      obtain ⟨grows, targets, known, es, errors, marks⟩ :=
        resolveVariable_adds R x.1 x.2 faithful
      obtain ⟨grows', targets', known', es', errors', marks'⟩ := ih grows.faithful
      dsimp only
      rw [List.foldl_cons]
      refine ⟨grows.trans grows', targets'.trans targets, ?_, es ++ es', ?_, ?_⟩
      · intro y hy declared
        rcases List.mem_cons.mp hy with rfl | hy
        · exact grows'.keys (known declared)
        · exact known' y hy declared
      · rw [errors', errors, List.append_assoc]
      · rw [List.filterMap_append, marks, marks', List.append_nil]

/-! ### All of it -/

/-- The variables of the assets that have a root, with the names of these assets. -/
def rootedBindings (R : Registry) : List (String × VariableEntry) :=
  R.rooted.flatMap fun a => a.bindings.entries.map fun v => (a.name, v)

/-- The steps of the assets that have a root, with the names of these assets. -/
def rootedSteps (R : Registry) : List (String × StepEntry) :=
  R.rooted.flatMap fun a => a.steps.entries.map fun s => (a.name, s)

/-- What is known when the steps come. -/
def variablesProgress (R : Registry) : Progress :=
  R.rootedBindings.foldl (fun p x => R.resolveVariable x.1 p x.2) ⟨.empty, [], []⟩

/-- All variables come before all steps. -/
theorem resolveAll_eq (R : Registry) :
    R.resolveAll = R.rootedSteps.foldl (fun p x => R.resolveStep x.1 p x.2)
      R.variablesProgress := by
  simp only [resolveAll, variablesProgress, rootedSteps, rootedBindings, List.foldl_flatMap,
    List.foldl_map, resolveVariables_eq_foldl]

/-- Working out the variables makes all of them known, and adds no error of a clause. -/
theorem variablesProgress_adds (R : Registry) :
    let p := R.variablesProgress
    Memo.empty.Grows R p.memo ∧ p.targets = [] ∧
      (∀ x ∈ R.rootedBindings, (R.declaredVariable? ⟨x.1, x.2.name⟩).isSome →
        ⟨x.1, x.2.name⟩ ∈ p.memo.keys) ∧
      p.errors.filterMap SemanticError.unresolvedAt? = [] := by
  obtain ⟨grows, targets, known, es, errors, marks⟩ :=
    foldl_resolveVariable_adds R R.rootedBindings (p := ⟨.empty, [], []⟩) (Memo.faithful_empty R)
  refine ⟨grows, targets, known, ?_⟩
  rw [variablesProgress, errors, List.nil_append, marks]

/-- Resolving the steps after that adds the targets of each, and the errors of each, in order. -/
theorem resolveAll_adds (R : Registry) :
    let p := R.variablesProgress
    let q := R.resolveAll
    p.memo.Grows R q.memo ∧
      List.Forall₂ (fun x t => StepTargets.Of R.schema x.1 x.2 t) R.rootedSteps q.targets ∧
      ∃ es, q.errors = p.errors ++ es ∧
        es.map SemanticError.unresolvedAt? =
          (R.rootedSteps.flatMap fun x => x.2.missed R.schema x.1).map some := by
  obtain ⟨known, noTargets, _⟩ := R.variablesProgress_adds
  obtain ⟨grows, ⟨ts, of, targets⟩, added⟩ :=
    foldl_resolveStep_adds R R.rootedSteps (p := R.variablesProgress) known.faithful
  rw [← resolveAll_eq] at grows targets added
  rw [noTargets, List.nil_append] at targets
  exact ⟨grows, targets ▸ of, added⟩

end Registry

end MetaAttack
