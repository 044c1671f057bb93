import Mathlib.Data.List.Nodup
import MetaAttack.Proofs.Events

/-!
# Verdicts and stack in step

A resolver at work holds two things: the verdicts on variables, and a stack of the variables that
are being worked out. They are changed in different places, when work on a variable begins, when it
ends, and on every way out in between. The two things stay in step: at every call of a variable, the
undecided variables are those on the stack. So a variable that is met again is found on the stack,
and what is reported of it starts with it.
-/

namespace MetaAttack

namespace ResolverState

variable {R : Registry} {s s' : ResolverState} {r : VariableRef} {v : VariableEntry}

/-- The undecided variables are those on the stack, once each, and verdicts are only given on
variables that the asset they are named with declares itself. -/
structure InStep (R : Registry) (s : ResolverState) : Prop where
  undecided : ∀ r, s.memo.find? r = some .undecided ↔ r ∈ s.stack
  nodup : s.stack.Nodup
  declared : ∀ r ∈ s.memo.keys, ∃ v, R.declaredVariable? r = some v

theorem inStep_start (R : Registry) : start.InStep R where
  undecided := by simp [start, idle, Memo.empty, Memo.find?]
  nodup := List.nodup_nil
  declared := by simp [start, idle, Memo.empty, Memo.keys]

/-- Entering puts the name on the stack and its key in progress. -/
theorem InStep.enter (h : s.InStep R) (hm : s.memo.find? r = none)
    (hv : R.declaredVariable? r = some v) : (s.enter r).InStep R where
  undecided := by
    intro q
    rw [ResolverState.enter, Memo.find?_record, List.mem_append, List.mem_singleton]
    by_cases same : q = r
    · simp [same]
    · simp [same, h.undecided q]
  nodup := by
    have unasked : r ∉ s.stack := by
      intro hr
      rw [(h.undecided r).mpr hr] at hm
      cases hm
    rw [ResolverState.enter, ← List.concat_eq_append]
    exact h.nodup.concat unasked
  declared := by
    intro q hq
    rcases Memo.mem_keys_record.mp hq with rfl | hq
    · exact ⟨v, hv⟩
    · exact h.declared q hq

/-- Leaving takes the name off and settles its key. -/
theorem InStep.leave (h : s'.InStep R) (hs : s'.stack = s.stack ++ [r])
    (hv : R.declaredVariable? r = some v) (x : Resolution String) : (s'.leave r x).InStep R := by
  have nodup := h.nodup
  rw [hs, List.nodup_append] at nodup
  obtain ⟨nodup, -, apart⟩ := nodup
  constructor
  case undecided =>
    intro q
    rw [stack_leave hs, ResolverState.leave, Memo.find?_record]
    by_cases same : q = r
    · have decided : Verdict.ofResult x ≠ .undecided := by cases x <;> simp [Verdict.ofResult]
      rw [if_pos same, Option.some.injEq]
      refine iff_of_false decided fun hq => ?_
      exact apart q hq r List.mem_cons_self same
    · rw [if_neg same, h.undecided q, hs, List.mem_append, List.mem_singleton]
      exact or_iff_left same
  case nodup =>
    rw [stack_leave hs]
    exact nodup
  case declared =>
    intro q hq
    rcases Memo.mem_keys_record.mp hq with rfl | hq
    · exact ⟨v, hv⟩
    · exact h.declared q hq

/-- A variable that is met again is found on the stack, so what is reported starts with it. -/
theorem cycleNames_of_mem (nodup : s.stack.Nodup) (hr : r ∈ s.stack) :
    ∃ outer inner, s.stack = outer ++ r :: inner ∧
      s.cycleNames r = (r :: inner).map VariableRef.name ++ [r.name] := by
  obtain ⟨outer, inner, hs⟩ := List.append_of_mem hr
  rw [hs, List.nodup_append] at nodup
  obtain ⟨-, -, apart⟩ := nodup
  have place : s.stack.findIdx? (· = r) = some outer.length := by
    have earlier : outer.findIdx? (· = r) = none := by
      rw [List.findIdx?_eq_none_iff]
      intro q hq
      simpa using apart q hq r List.mem_cons_self
    rw [hs, List.findIdx?_append, earlier]
    simp [List.findIdx?_cons]
  refine ⟨outer, inner, hs, ?_⟩
  rw [cycleNames, place, Option.getD_some, hs, List.drop_left]

end ResolverState

/-- The run leaves verdicts and stack in step, and every call of a variable met them so. -/
structure Run.InStep {α : Type} (R : Registry) (x : Run α) : Prop where
  state : x.state.InStep R
  calls : ∀ c ∈ calls x.trace, c.state.InStep R

/-- Two runs, one after the other. -/
theorem Run.InStep.append {α β : Type} {R : Registry} {x : Run α} {y : Run β} (h : x.InStep R)
    (h' : y.InStep R) : Run.InStep R ⟨y.toAnswer, x.trace ++ y.trace⟩ where
  state := h'.state
  calls := by
    rw [calls_append]
    exact List.forall_mem_append.mpr ⟨h.calls, h'.calls⟩

namespace Registry

variable {R : Registry} {s : ResolverState} {r : VariableRef} {C : String} {e : Expr} {α : Type}

/-- The task meets verdicts and stack in step. -/
def MetInStep (R : Registry) (q : Task) : Prop := q.state.InStep R

/-- The work keeps verdicts and stack in step, if the tasks that it waits for do. -/
def EnsuresInStep (R : Registry) (w : Work α) : Prop :=
  R.Ensures R.MetInStep (fun _ x => x.InStep R) w fun y => y.InStep R

theorem ensuresInStep_judge (ok : s.InStep R) (x : Resolution α) :
    R.EnsuresInStep (.judge x s) :=
  ensures_judge.mpr ⟨ok, by simp⟩

theorem ensuresInStep_last {q : Task} (ok : q.state.InStep R) :
    R.EnsuresInStep (.await q .done) :=
  ensures_last ok fun _ _ kept => kept

/-- Work that keeps them in step does so behind a run that did. -/
theorem EnsuresInStep.behind {β : Type} {w : Work α} (h : R.EnsuresInStep w) {x : Run β}
    (kept : x.InStep R) :
    R.Ensures R.MetInStep (fun _ x => x.InStep R) w fun y =>
      Run.InStep R ⟨y.toAnswer, x.trace ++ y.trace⟩ :=
  Ensures.imp_post h fun _ => kept.append

theorem ensuresInStep_andThen {next : String → ResolverState → Work α} (ok : s.InStep R)
    (h : ∀ t s', s'.InStep R → R.EnsuresInStep (next t s')) :
    R.EnsuresInStep (.await (.type s C e) fun a => a.andThen next) := by
  apply ensures_await_andThen ok
  · exact fun x t _ kept _ => (h t x.state kept.state).behind kept
  · exact fun x causes _ kept _ => ⟨kept.state, kept.calls⟩

/-- The only task that touches the stack restores it, whatever its body comes to. -/
theorem ensuresInStep_binding (ok : s.InStep R) (span : Span) :
    R.EnsuresInStep (R.work (.binding s r span)) := by
  -- the call itself is the first one of the run
  have called : ∀ {es : List Event}, (∀ c ∈ calls es, c.state.InStep R) →
      ∀ c ∈ calls (.called ⟨r, s⟩ :: es), c.state.InStep R :=
    fun h => List.forall_mem_cons.mpr ⟨ok, h⟩
  rw [EnsuresInStep, work]
  simp only [Ensures]
  split
  · exact ensures_judge.mpr ⟨ok, called (by simp)⟩
  · next unknown =>
    split
    · exact ensures_judge.mpr ⟨ok, called (by simp)⟩
    · next v hv =>
      refine ⟨ok.enter unknown hv, fun x finishes kept => ?_⟩
      have left := kept.state.leave finishes.grown.stack hv x.result
      rw [Ensures, List.append_nil]
      exact ⟨left, called kept.calls⟩

theorem ensuresInStep_work (R : Registry) (q : Task) (ok : q.state.InStep R) :
    R.EnsuresInStep (R.work q) := by
  cases q with
  | binding s r span => exact ensuresInStep_binding ok span
  | type s C e =>
      cases e with
      | field name span => exact ensuresInStep_judge ok _
      | call name span =>
          rw [work]
          split
          · exact ensuresInStep_last ok
          · exact ensuresInStep_judge ok _
      | collect lhs rhs span =>
          exact ensuresInStep_andThen ok fun t s' ok' => ensuresInStep_last ok'
      | combine op lhs rhs span =>
          refine ⟨ok, fun x _ left => ⟨left.state, fun y _ right => ?_⟩⟩
          have both := left.append right
          simp only [← List.append_assoc]
          refine ensures_both.mpr ⟨fun t u _ _ => ?_, fun _ => ?_⟩
          · exact (ensuresInStep_judge right.state _).behind both
          · rw [List.append_nil]
            exact ⟨both.state, both.calls⟩
      | closure inner span | restrict inner subtype span =>
          exact ensuresInStep_andThen ok fun t s' ok' => ensuresInStep_judge ok' _
  | step s C e =>
      cases e with
      | collect lhs rhs span =>
          exact ensuresInStep_andThen ok fun t s' ok' => ensuresInStep_last ok'
      | field _ _ | call _ _ | combine _ _ _ _ | closure _ _ | restrict _ _ _ =>
          exact ensuresInStep_judge ok _

/-- Whatever the resolver is asked, its verdicts and its stack are in step at every call of a
variable and at the end. -/
theorem resolve_inStep (q : Task) (ok : q.state.InStep R) : (R.resolve q).InStep R :=
  R.resolve_induction R.MetInStep (fun _ x => x.InStep R) (ensuresInStep_work R) q ok

end Registry

/-! ### Sessions -/

/-- What comes of one question of a session: the reply, the state that is left, and the calls of
variables on the way. -/
structure Turn where
  reply : Reply
  state : ResolverState
  calls : List VariableCall

namespace Registry

variable {R : Registry} {s : ResolverState}

/-- A question asked of a resolver in the state `s`. -/
def runQuery (R : Registry) (s : ResolverState) (q : Query) : Turn :=
  let x := R.resolve (q.task s)
  ⟨(q.task s).reply x.result, x.state, MetaAttack.calls x.trace⟩

/-- Questions asked of one resolver, in order. -/
def runSession (R : Registry) (s : ResolverState) : List Query → List Turn
  | [] => []
  | q :: qs => R.runQuery s q :: R.runSession (R.runQuery s q).state qs

/-- A question leaves the resolver as idle as it was. -/
structure Settled (R : Registry) (t : Turn) : Prop where
  stack : t.state.stack = []
  inStep : t.state.InStep R
  calls : ∀ c ∈ t.calls, c.state.InStep R

theorem Settled.state_eq {t : Turn} (h : R.Settled t) : t.state = .idle t.state.memo := by
  rw [ResolverState.idle, ← h.stack]

/-- Between queries nothing is in progress. -/
theorem runQuery_settled (ok : s.InStep R) (idle : s.stack = []) (q : Query) :
    R.Settled (R.runQuery s q) := by
  have stack := (R.grows_resolve (q.task s)).stack
  rw [Query.state_task, idle] at stack
  have kept : (R.resolve (q.task s)).InStep R := by
    apply resolve_inStep
    rwa [Query.state_task]
  exact ⟨stack, kept.state, kept.calls⟩

/-- With an empty stack, all that a resolver brings to a question is its memory. -/
theorem runQuery_eq_ask (idle : s.stack = []) (q : Query) :
    (R.runQuery s q).reply = (R.ask s.memo q).1 ∧
      (R.runQuery s q).state.memo = (R.ask s.memo q).2 := by
  obtain ⟨m, stack⟩ := s
  obtain rfl : stack = [] := idle
  exact ⟨rfl, rfl⟩

/-- The same for every turn of a session, which answers as the resolver does. -/
theorem runSession_settled (ok : s.InStep R) (idle : s.stack = []) (qs : List Query) :
    (∀ t ∈ R.runSession s qs, R.Settled t) ∧
      (R.runSession s qs).map Turn.reply = R.askAll s.memo qs := by
  induction qs generalizing s with
  | nil => exact ⟨fun _ ht => (by cases ht), rfl⟩
  | cons q qs ih =>
      have settled := runQuery_settled ok idle q
      obtain ⟨reply, memo⟩ := runQuery_eq_ask (R := R) idle q
      obtain ⟨rest, replies⟩ := ih settled.inStep settled.stack
      refine ⟨List.forall_mem_cons.mpr ⟨settled, rest⟩, ?_⟩
      rw [runSession, List.map_cons, reply, replies, memo]
      rfl

end Registry

end MetaAttack
