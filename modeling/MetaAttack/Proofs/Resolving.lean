import MetaAttack.Proofs.Rules
import MetaAttack.Typing.Resolver

/-!
# Resolving decides typing

What the resolver answers is what the typing relation says, whatever was asked before. Two things
could go wrong with its memory: a variable could be kept as failed only because the question came
while it was being worked out, or a cycle could be reported where there is none. Neither happens:
the body of each variable on the stack needs the answer that is being worked out, so a variable that
is met on the stack needs its own answer and has no type.

## Implementation notes

`Memo.Faithful` is the invariant of the memory and `Leads` that of the stack. Both are carried
through the recursion of the resolver by one induction.
-/

namespace MetaAttack

open Relation

namespace Memo

variable {m : Memo} {r q : VariableRef} {v : Verdict}

theorem find?_record : (m.record r v).find? q = if q = r then some v else m.find? q := by
  rw [record]
  split
  · next h =>
    simp only [find?, List.find?_map]
    have same : (fun p : VariableRef × Verdict => decide (p.1 = q)) ∘
        (fun p => if p.1 = r then (r, v) else p) = fun p => decide (p.1 = q) := by
      funext p
      by_cases hp : p.1 = r <;> simp [hp]
    rw [same]
    by_cases hq : q = r
    · subst hq
      obtain ⟨p, hp, hpq⟩ := List.mem_map.mp h
      cases hf : m.verdicts.find? fun p => p.1 = q with
      | none => exact absurd hpq (by simpa using List.find?_eq_none.mp hf p hp)
      | some p' =>
          have : p'.1 = q := by simpa using List.find?_some hf
          simp [this]
    · cases hf : m.verdicts.find? fun p => p.1 = q with
      | none => simp [hq]
      | some p' =>
          have : p'.1 = q := by simpa using List.find?_some hf
          simp [this, hq]
  · next h =>
    by_cases hq : q = r
    · subst hq
      have hnone := find?_eq_none.mpr h
      rw [find?, Option.map_eq_none_iff] at hnone
      simp [find?, List.find?_append, hnone]
    · have : r ≠ q := fun h => hq h.symm
      simp [find?, List.find?_append, hq, this]

/-- All verdicts are right, and the variables without one are on the stack. -/
structure Faithful (R : Registry) (stack : List VariableRef) (m : Memo) : Prop where
  typed : ∀ {r t}, m.find? r = some (.typed t) → R.schema.BindingType r.asset r.name t
  failed : ∀ {r t}, m.find? r = some .failed → ¬ R.schema.BindingType r.asset r.name t
  undecided : ∀ {r}, m.find? r = some .undecided → r ∈ stack

/-- An empty memory says nothing wrong. -/
theorem faithful_empty (R : Registry) : Memo.empty.Faithful R [] := by
  constructor <;> intro r <;> simp [Memo.empty, find?]

variable {R : Registry} {stack : List VariableRef}

/-- Entering a variable puts it on the stack. -/
theorem Faithful.enter (h : m.Faithful R stack) (r : VariableRef) :
    (m.record r .undecided).Faithful R (stack ++ [r]) where
  typed := fun hq => h.typed (by grind [find?_record])
  failed := fun hq => h.failed (by grind [find?_record])
  undecided := by
    intro q hq
    by_cases hqr : q = r
    · simp [hqr]
    · exact List.mem_append_left _ (h.undecided (by grind [find?_record]))

/-- Leaving a variable with its exact result takes it off the stack. -/
theorem Faithful.leave {x : Resolution String} (h : m.Faithful R (stack ++ [r]))
    (hx : x.Exact (R.schema.BindingType r.asset r.name)) :
    (m.record r (.ofResult x)).Faithful R stack where
  typed := by
    intro q t hq
    rw [find?_record] at hq
    split at hq
    · next hqr =>
      cases x with
      | error es => simp [Verdict.ofResult] at hq
      | ok u =>
          obtain rfl : u = t := by simpa [Verdict.ofResult] using hq
          exact hqr ▸ (hx u).mp rfl
    · exact h.typed hq
  failed := by
    intro q t hq
    rw [find?_record] at hq
    split at hq
    · next hqr =>
      cases x with
      | ok u => simp [Verdict.ofResult] at hq
      | error es =>
          intro typed
          have := (hx t).mpr (hqr ▸ typed)
          cases this
    · exact h.failed hq
  undecided := by
    intro q hq
    rw [find?_record] at hq
    split at hq
    · cases x <;> simp [Verdict.ofResult] at hq
    · next hqr =>
      rcases List.mem_append.mp (h.undecided hq) with hmem | hmem
      · exact hmem
      · exact absurd (List.mem_singleton.mp hmem) hqr

end Memo

namespace Registry

variable {R : Registry} {stack : List VariableRef} {s : ResolverState} {r : VariableRef}
variable {C : String} {e lhs rhs : Expr} {span : Span}

theorem binding_of_declared {v : VariableEntry} (h : R.declaredVariable? r = some v) :
    R.schema.binding r.asset r.name v.expr := by
  simp only [declaredVariable?, Option.bind_eq_bind, Option.bind_eq_some_iff] at h
  obtain ⟨a, ha, hv⟩ := h
  exact ⟨a, ha, v, hv, rfl⟩

theorem declared_of_binding (h : R.schema.binding r.asset r.name e) :
    ∃ v, R.declaredVariable? r = some v ∧ v.expr = e := by
  obtain ⟨a, ha, v, hv, he⟩ := h
  exact ⟨v, by simp [declaredVariable?, ha, hv], he⟩

/-- A variable has the type of its expression in the asset that declares it. -/
theorem bindingType_iff {v : VariableEntry} {T : String} (h : R.declaredVariable? r = some v) :
    R.schema.BindingType r.asset r.name T ↔ R.schema.HasType r.asset v.expr T := by
  have declared := binding_of_declared h
  constructor
  · rintro ⟨d, body, typed⟩
    exact R.schema_coherent.binding body declared ▸ typed
  · exact fun typed => ⟨v.expr, declared, typed⟩

section

variable {name : Ident} {a : AssetEntry} {v : VariableEntry}

theorem declared_of_findVariable? (hv : R.findVariable? C name.name = some (a, v)) :
    R.declaredVariable? ⟨a.name, name.name⟩ = some v := by
  obtain ⟨_, ha, hfind⟩ := findVariable?_eq_some_iff.mp hv
  simp [declaredVariable?, ha, hfind]

/-- A call needs the body that it means, where this is declared. -/
theorem needs_of_findVariable? (hv : R.findVariable? C name.name = some (a, v)) :
    R.schema.Needs (C, .call name span) (a.name, v.expr) :=
  .call (findVariable?_eq_some_iff.mp hv).1 (binding_of_declared (declared_of_findVariable? hv))

end

/-- The body of each variable on the stack needs the question. -/
def Leads (R : Registry) (stack : List VariableRef) (q : String × Expr) : Prop :=
  ∀ r ∈ stack, ∃ v, R.declaredVariable? r = some v ∧
    ReflTransGen R.schema.Needs (r.asset, v.expr) q

theorem Leads.step {q q' : String × Expr} (h : R.Leads stack q) (hq : R.schema.Needs q q') :
    R.Leads stack q' := by
  intro r hr
  obtain ⟨v, hv, path⟩ := h r hr
  exact ⟨v, hv, path.tail hq⟩

/-! ### Exactness -/

/-- What a result of the task has to be. -/
def Means (R : Registry) : (q : Task) → q.Target → Prop
  | .binding _ r _ => R.schema.BindingType r.asset r.name
  | .type _ C e => R.schema.HasType C e
  | .step _ C e => R.schema.LeadsTo C e

/-- The memory is faithful, and where the variable is declared, the body of each variable on the
stack needs its body. -/
structure Entered (R : Registry) (s : ResolverState) (r : VariableRef) : Prop where
  faithful : s.memo.Faithful R s.stack
  leads : ∀ v, R.declaredVariable? r = some v → ∀ q ∈ s.stack, ∃ w,
    R.declaredVariable? q = some w ∧ TransGen R.schema.Needs (q.asset, w.expr) (r.asset, v.expr)

/-- What a task relies on: a faithful memory, and that everything on the stack leads to it. -/
def Expects (R : Registry) : Task → Prop
  | .binding s r _ => R.Entered s r
  | .type s C e | .step s C e => s.memo.Faithful R s.stack ∧ R.Leads s.stack (C, e)

/-- The run finds exactly what is asked for and keeps the memory faithful. -/
def Exact (R : Registry) (q : Task) (x : Run q.Target) : Prop :=
  x.result.Exact (R.Means q) ∧ x.state.memo.Faithful R x.state.stack

/-- A variable on the stack needs its own type. -/
theorem not_bindingType_of_stack (entered : R.Entered s r) (hr : r ∈ s.stack) (T : String) :
    ¬ R.schema.BindingType r.asset r.name T := by
  rintro ⟨e, body, typed⟩
  obtain ⟨v, hv, rfl⟩ := declared_of_binding body
  obtain ⟨w, hw, loop⟩ := entered.leads v hv r hr
  obtain rfl : w = v := by simpa [hw] using hv
  exact Schema.not_hasType_of_cycle R.schema_coherent loop typed

/-- What is remembered is exact, and what is in progress has no type: its own body leads to it. -/
theorem remembered_exact {v : Verdict} (hv : s.memo.find? r = some v) (entered : R.Entered s r) :
    (s.remembered r span v).Exact (R.schema.BindingType r.asset r.name) := by
  cases v with
  | typed t =>
      obtain ⟨e, body, typed⟩ := entered.faithful.typed hv
      intro T
      constructor
      · intro h
        cases h
        exact ⟨e, body, typed⟩
      · rintro ⟨d, body', typed'⟩
        obtain rfl := R.schema_coherent.binding body body'
        rw [typed.unique R.schema_coherent typed']
        rfl
  | failed => exact exact_error fun T => entered.faithful.failed hv
  | undecided =>
      exact exact_error (not_bindingType_of_stack entered (entered.faithful.undecided hv))

theorem not_bindingType_of_undeclared (hv : R.declaredVariable? r = none) (T : String) :
    ¬ R.schema.BindingType r.asset r.name T := by
  rintro ⟨e, body, -⟩
  obtain ⟨v, hv', -⟩ := declared_of_binding body
  rw [hv] at hv'
  cases hv'

theorem not_hasType_of_findVariable?_none {name : Ident} (hv : R.findVariable? C name.name = none)
    (T : String) : ¬ R.schema.HasType C (.call name span) T := by
  intro typed
  cases typed with
  | call near body _ =>
      obtain ⟨a, ha, v, hfind, -⟩ := body
      obtain rfl := name_of_asset? ha
      rw [findVariable?_eq_some_iff.mpr ⟨near, ha, hfind⟩] at hv
      cases hv

/-- The body of a variable that is entered is led to by all that led to the variable, and by the
variable itself. -/
theorem Entered.expects_body {v : VariableEntry} (entered : R.Entered s r)
    (hv : R.declaredVariable? r = some v) : R.Expects (.type (s.enter r) r.asset v.expr) := by
  refine ⟨entered.faithful.enter r, fun q hq => ?_⟩
  rcases List.mem_append.mp hq with hq | hq
  · obtain ⟨w, hw, path⟩ := entered.leads v hv q hq
    exact ⟨w, hw, path.to_reflTransGen⟩
  · obtain rfl := List.mem_singleton.mp hq
    exact ⟨v, hv, .refl⟩

/-- Leaving a variable with what its body came to. -/
theorem Exact.leave {v : VariableEntry} {x : Run String} (hv : R.declaredVariable? r = some v)
    (body : R.Exact (.type (s.enter r) r.asset v.expr) x)
    (stack : x.state.stack = s.stack ++ [r]) {trace : List Event} :
    R.Exact (.binding s r span) ⟨⟨x.result, x.state.leave r x.result⟩, trace⟩ := by
  obtain ⟨exact, faithful⟩ := body
  have exactBinding : x.result.Exact (R.schema.BindingType r.asset r.name) := by
    intro T
    rw [bindingType_iff hv]
    exact exact T
  refine ⟨exactBinding, ?_⟩
  rw [stack] at faithful
  rw [ResolverState.stack_leave stack]
  exact faithful.leave exactBinding

/-- A variable is as exact as its body. Its key is settled on leaving. -/
theorem exact_binding (s : ResolverState) (r : VariableRef) (span : Span)
    (entered : R.Entered s r) :
    R.Ensures R.Expects R.Exact (R.work (.binding s r span)) (R.Exact (.binding s r span)) := by
  rw [work]
  simp only [Ensures]
  split
  · next v hv => exact ensures_judge.mpr ⟨remembered_exact hv entered, entered.faithful⟩
  · split
    · next hv =>
      have untyped := not_bindingType_of_undeclared hv
      exact ensures_judge.mpr ⟨exact_error untyped, entered.faithful⟩
    · next v hv => exact ⟨entered.expects_body hv, fun x finishes body =>
        body.leave hv finishes.grown.stack⟩

theorem exact_call {name : Ident} (faithful : s.memo.Faithful R s.stack)
    (leads : R.Leads s.stack (C, .call name span)) :
    R.Ensures R.Expects R.Exact (R.work (.type s C (.call name span)))
      (R.Exact (.type s C (.call name span))) := by
  rw [work]
  split
  · next a v hv =>
    have declared := declared_of_findVariable? hv
    have near := (findVariable?_eq_some_iff.mp hv).1
    constructor
    · refine ⟨faithful, fun w hw q hq => ?_⟩
      obtain rfl : v = w := by simpa [declared] using hw
      obtain ⟨u, hu, path⟩ := leads q hq
      exact ⟨u, hu, TransGen.tail' path (needs_of_findVariable? hv)⟩
    · rintro x - ⟨exact, faithful'⟩
      refine ⟨fun T => (exact T).trans ?_, faithful'⟩
      constructor
      · rintro ⟨e, body, typed⟩
        exact .call near body typed
      · intro typed
        cases typed with
        | call near' body typed =>
            obtain rfl := near.unique R.schema_coherent near'
            exact ⟨_, body, typed⟩
  · next hv =>
    exact ensures_judge.mpr ⟨exact_error (not_hasType_of_findVariable?_none hv), faithful⟩

/-- Work goes on with the type of a part, or ends with the causes for which the part has none. -/
theorem exact_andThen {α : Type} {next : String → ResolverState → Work α} {Q : Run α → Prop}
    (faithful : s.memo.Faithful R s.stack) (leads : R.Leads s.stack (C, e))
    (typed : ∀ t s' trace, R.schema.HasType C e t → s'.stack = s.stack →
      s'.memo.Faithful R s'.stack → R.Ensures R.Expects R.Exact (next t s') fun y =>
        Q ⟨y.toAnswer, trace ++ y.trace⟩)
    (untyped : ∀ es s' trace, (∀ t, ¬ R.schema.HasType C e t) → s'.memo.Faithful R s'.stack →
      Q ⟨⟨.error es, s'⟩, trace⟩) :
    R.Ensures R.Expects R.Exact (.await (.type s C e) fun a => a.andThen next) Q := by
  apply ensures_await_andThen ⟨faithful, leads⟩
  · intro x t finishes exact ht
    exact typed t x.state x.trace ((exact.1 t).mp ht) finishes.grown.stack exact.2
  · intro x es _ exact he
    exact untyped es x.state x.trace (exact.1.not_of_error he) exact.2

theorem exact_collect (faithful : s.memo.Faithful R s.stack)
    (leads : R.Leads s.stack (C, .collect lhs rhs span)) :
    R.Ensures R.Expects R.Exact (R.work (.type s C (.collect lhs rhs span)))
      (R.Exact (.type s C (.collect lhs rhs span))) := by
  apply exact_andThen faithful (leads.step .collectLeft)
  · intro t s' _ left same faithful'
    rw [← same] at leads
    apply ensures_last ⟨faithful', leads.step (.collectRight left)⟩
    intro y _ ⟨exact, faithful''⟩
    refine ⟨fun T => (exact T).trans ⟨.collect left, fun typed => ?_⟩, faithful''⟩
    cases typed with
    | collect left' right => exact left.unique R.schema_coherent left' ▸ right
  · refine fun _ _ _ untyped faithful' => ⟨exact_error fun T typed => ?_, faithful'⟩
    cases typed with
    | collect left _ => exact untyped _ left

/-- As for the type of a chain, with a step in place of the last type. -/
theorem exact_collectStep (faithful : s.memo.Faithful R s.stack)
    (leads : R.Leads s.stack (C, .collect lhs rhs span)) :
    R.Ensures R.Expects R.Exact (R.work (.step s C (.collect lhs rhs span)))
      (R.Exact (.step s C (.collect lhs rhs span))) := by
  apply exact_andThen faithful (leads.step .collectLeft)
  · intro t s' _ left same faithful'
    rw [← same] at leads
    apply ensures_last ⟨faithful', leads.step (.collectRight left)⟩
    intro y _ ⟨exact, faithful''⟩
    refine ⟨fun ref => (exact ref).trans ⟨.collect left, fun typed => ?_⟩, faithful''⟩
    cases typed with
    | collect left' right => exact left.unique R.schema_coherent left' ▸ right
  · refine fun _ _ _ untyped faithful' => ⟨exact_error fun ref typed => ?_, faithful'⟩
    cases typed with
    | collect left _ => exact untyped _ left

/-- Both operands are resolved even if one of them fails, so both must be exact. -/
theorem exact_combine {op : SetOp} (faithful : s.memo.Faithful R s.stack)
    (leads : R.Leads s.stack (C, .combine op lhs rhs span)) :
    R.Ensures R.Expects R.Exact (R.work (.type s C (.combine op lhs rhs span)))
      (R.Exact (.type s C (.combine op lhs rhs span))) := by
  refine ⟨⟨faithful, leads.step .combineLeft⟩, fun x finishes ⟨exact, faithful'⟩ => ?_⟩
  have same : x.state.stack = s.stack := finishes.grown.stack
  rw [← same] at leads
  refine ⟨⟨faithful', leads.step .combineRight⟩, fun y _ ⟨exact', faithful''⟩ => ?_⟩
  refine ensures_both.mpr ⟨fun A B hA hB => ensures_judge.mpr ?_, fun untyped => ?_⟩
  · exact ⟨typeOfSet_exact ((exact A).mp hA) ((exact' B).mp hB), faithful''⟩
  · refine ⟨exact_error fun T typed => ?_, faithful''⟩
    cases typed with
    | combine left right _ => exact untyped _ _ ((exact _).mpr left) ((exact' _).mpr right)

theorem exact_closure (faithful : s.memo.Faithful R s.stack)
    (leads : R.Leads s.stack (C, .closure e span)) :
    R.Ensures R.Expects R.Exact (R.work (.type s C (.closure e span)))
      (R.Exact (.type s C (.closure e span))) := by
  apply exact_andThen faithful (leads.step .closure)
  · intro t s' _ inner _ faithful'
    exact ensures_judge.mpr ⟨typeOfClosure_exact inner, faithful'⟩
  · refine fun _ _ _ untyped faithful' => ⟨exact_error fun T typed => ?_, faithful'⟩
    cases typed with
    | closure inner _ => exact untyped _ inner

theorem exact_restrict {A : Ident} (faithful : s.memo.Faithful R s.stack)
    (leads : R.Leads s.stack (C, .restrict e A span)) :
    R.Ensures R.Expects R.Exact (R.work (.type s C (.restrict e A span)))
      (R.Exact (.type s C (.restrict e A span))) := by
  apply exact_andThen faithful (leads.step .restrict)
  · intro t s' _ inner _ faithful'
    exact ensures_judge.mpr ⟨typeOfRestriction_exact inner, faithful'⟩
  · refine fun _ _ _ untyped faithful' => ⟨exact_error fun T typed => ?_, faithful'⟩
    cases typed with
    | restrict inner _ _ => exact untyped _ inner

/-- Every run of the resolver is exact, and its memory stays faithful. -/
theorem resolve_exact (q : Task) (expects : R.Expects q) : R.Exact q (R.resolve q) := by
  refine R.resolve_induction R.Expects R.Exact (fun q expects => ?_) q expects
  cases q with
  | binding s r span => exact exact_binding s r span expects
  | type s C e =>
      obtain ⟨faithful, leads⟩ := expects
      cases e with
      | field name span => exact ensures_judge.mpr ⟨R.typeOfField_exact C name span, faithful⟩
      | call name span => exact exact_call faithful leads
      | collect lhs rhs span => exact exact_collect faithful leads
      | combine op lhs rhs span => exact exact_combine faithful leads
      | closure e span => exact exact_closure faithful leads
      | restrict e A span => exact exact_restrict faithful leads
  | step s C e =>
      obtain ⟨faithful, leads⟩ := expects
      cases e with
      | field name span => exact ensures_judge.mpr ⟨R.stepOfField_exact C name span, faithful⟩
      | collect lhs rhs span => exact exact_collectStep faithful leads
      | call _ _ | combine _ _ _ _ | closure _ _ | restrict _ _ _ =>
          exact ensures_judge.mpr ⟨exact_error fun ref leadsTo => (by cases leadsTo), faithful⟩

/-! ### Single questions -/

/-- Between questions nothing leads to a task, and a faithful memory is all that it relies on. -/
theorem expects_of_idle {q : Task} (idle : q.state.stack = []) (faithful : q.known.Faithful R []) :
    R.Expects q := by
  rw [← idle] at faithful
  cases q with
  | binding s r span =>
      refine ⟨faithful, fun _ _ k hk => ?_⟩
      rw [show s.stack = [] from idle] at hk
      cases hk
  | type s C e | step s C e =>
      refine ⟨faithful, fun k hk => ?_⟩
      rw [show s.stack = [] from idle] at hk
      cases hk

/-- The form in which it is used between queries. -/
theorem resolve_exact_of_idle {q : Task} (idle : q.state.stack = [])
    (faithful : q.known.Faithful R []) :
    (R.resolve q).result.Exact (R.Means q) ∧ (R.resolve q).state.memo.Faithful R [] := by
  have exact := resolve_exact q (expects_of_idle idle faithful)
  rwa [Exact, (R.grows_resolve q).stack, idle] at exact

/-- A resolver that was asked nothing yet finds exactly what it is asked for. -/
theorem resolve_eq_ok_iff {q : Task} (fresh : q.state = .start) {t : q.Target} :
    (R.resolve q).result = .ok t ↔ R.Means q t := by
  apply (resolve_exact_of_idle _ _).1
  · rw [fresh]
    rfl
  · rw [Task.known, fresh]
    exact Memo.faithful_empty R

end Registry

end MetaAttack
