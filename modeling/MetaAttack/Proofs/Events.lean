import Mathlib.Data.List.Nodup
import MetaAttack.Proofs.Memory
import MetaAttack.Proofs.Session

/-!
# What happens while expressions are resolved

A run has a trace: the variables that were called, the bodies that were entered, and the causes that
were found, in the order in which all this happened. So what happened in the left operand of an
operator comes before what happened in the right one. The trace accounts for the answer: its causes
are the ones that were found, and the variables that become known are the ones whose bodies were
entered.
-/

namespace MetaAttack

namespace Event

/-- The call that an event stands for, if it does. -/
def call? : Event → Option VariableCall
  | called c => some c
  | entered _ | found _ => none

/-- The variable whose body was entered. -/
def entered? : Event → Option VariableRef
  | entered r => some r
  | called _ | found _ => none

/-- The cause that was found. -/
def cause? : Event → Option ResolveError
  | found c => some c
  | called _ | entered _ => none

end Event

/-- The calls of variables, with the states that they meet. -/
def calls (es : List Event) : List VariableCall := es.filterMap Event.call?

/-- The variables whose bodies are entered. -/
def entered (es : List Event) : List VariableRef := es.filterMap Event.entered?

/-- The causes that are found. -/
def causes (es : List Event) : List ResolveError := es.filterMap Event.cause?

section

variable {es fs : List Event} {r : VariableRef} {c : VariableCall} {α : Type}

@[simp] theorem entered_nil : entered [] = [] := rfl

@[simp] theorem calls_append : calls (es ++ fs) = calls es ++ calls fs := List.filterMap_append

@[simp] theorem entered_append : entered (es ++ fs) = entered es ++ entered fs :=
  List.filterMap_append

@[simp] theorem causes_append : causes (es ++ fs) = causes es ++ causes fs :=
  List.filterMap_append

/-- Reaching a judgement makes no call by itself. -/
@[simp] theorem calls_events (x : Resolution α) : calls x.events = [] := by
  simp [Resolution.events, calls, Event.call?]

@[simp] theorem entered_events (x : Resolution α) : entered x.events = [] := by
  simp [Resolution.events, entered, Event.entered?]

/-- A judgement finds the causes that it is an error with. -/
@[simp] theorem causes_events (x : Resolution α) : causes x.events = x.causes := by
  rw [causes, Resolution.events, List.filterMap_map]
  exact List.filterMap_some

end

namespace Memo

variable {m : Memo} {r : VariableRef} {v : Verdict}

/-- Noting the type of a known variable adds no key. -/
theorem keys_record_of_mem (h : r ∈ m.keys) : (m.record r v).keys = m.keys := by
  rw [record, if_pos h, keys, keys, List.map_map]
  apply List.map_congr_left
  intro p _
  dsimp only [Function.comp_apply]
  split
  · next same => exact same.symm
  · rfl

theorem keys_record_of_not_mem (h : r ∉ m.keys) : (m.record r v).keys = m.keys ++ [r] := by
  rw [record, if_neg h, keys, List.map_append]
  rfl

end Memo

namespace Registry

variable {R : Registry} {s : ResolverState} {r : VariableRef} {C : String} {e lhs rhs : Expr}
variable {span : Span} {m : Memo} {α β : Type} {x : Run α} {y : Run β} {t : α}

/-- The causes of the answer are the ones found, and the variables that it makes known are the ones
entered, which were not known. -/
structure Accounted (m : Memo) (x : Run α) : Prop where
  causes : x.result.causes = causes x.trace
  keys : x.state.memo.keys = m.keys ++ entered x.trace
  nodup : m.keys.Nodup → x.state.memo.keys.Nodup

/-- The trace of a run accounts for its answer. -/
def TaskAccounted (q : Task) (x : Run q.Target) : Prop := Accounted q.known x

/-- A judgement on the spot leaves the memory as it is. -/
theorem accounted_judge (x : Resolution α) (s : ResolverState) :
    Accounted s.memo (⟨⟨x, s⟩, x.events⟩ : Run α) where
  causes := (causes_events x).symm
  keys := by
    rw [entered_events, List.append_nil]
  nodup := id

/-- Behind a run without causes, a second one accounts for what they come to together. -/
theorem Accounted.after (h : Accounted m x) (ht : x.result = .ok t)
    (h' : Accounted x.state.memo y) : Accounted m ⟨y.toAnswer, x.trace ++ y.trace⟩ where
  causes := by
    have none : MetaAttack.causes x.trace = [] := by
      rw [← h.causes, ht]
      rfl
    rw [causes_append, none]
    exact h'.causes
  keys := by
    rw [entered_append, ← List.append_assoc, ← h.keys]
    exact h'.keys
  nodup := fun known => h'.nodup (h.nodup known)

/-- Causes that are passed on were found before. -/
theorem Accounted.passed {es : List ResolveError} (h : Accounted m x)
    (he : x.result = .error es) :
    Accounted m (⟨⟨.error es, x.state⟩, x.trace⟩ : Run β) where
  causes := by
    rw [← h.causes, he]
    rfl
  keys := h.keys
  nodup := h.nodup

/-- The causes of the left operand come before those of the right one. -/
theorem Accounted.both (h : Accounted m x) (h' : Accounted x.state.memo y) {γ : Type} :
    Accounted m (⟨⟨.error (x.result.causes ++ y.result.causes), y.state⟩,
      x.trace ++ y.trace⟩ : Run γ) where
  causes := by
    rw [causes_append, ← h.causes, ← h'.causes]
    rfl
  keys := by
    rw [entered_append, ← List.append_assoc, ← h.keys]
    exact h'.keys
  nodup := fun known => h'.nodup (h.nodup known)

/-- A call makes nothing known and finds no cause. -/
theorem Accounted.called (h : Accounted m x) (c : VariableCall) :
    Accounted m ⟨x.toAnswer, .called c :: x.trace⟩ := ⟨h.causes, h.keys, h.nodup⟩

/-- The variable whose body was worked out is the first one that becomes known. -/
theorem Accounted.body {x : Run String} (unknown : r ∉ s.memo.keys)
    (h : Accounted (s.enter r).memo x) :
    Accounted s.memo ⟨⟨x.result, x.state.leave r x.result⟩, .entered r :: x.trace⟩ := by
  have entering : (s.enter r).memo.keys = s.memo.keys ++ [r] := Memo.keys_record_of_not_mem unknown
  have known : r ∈ x.state.memo.keys := by
    rw [h.keys, entering]
    simp
  have leaving : (x.state.leave r x.result).memo.keys = x.state.memo.keys :=
    Memo.keys_record_of_mem known
  constructor
  case causes => exact h.causes
  case keys =>
    change (x.state.leave r x.result).memo.keys = s.memo.keys ++ r :: entered x.trace
    rw [leaving, h.keys, entering, List.append_assoc, List.singleton_append]
  case nodup =>
    intro nodup
    change (x.state.leave r x.result).memo.keys.Nodup
    rw [leaving]
    apply h.nodup
    rw [entering, ← List.concat_eq_append]
    exact nodup.concat unknown

/-- The work on a task accounts for its answer, if the tasks that it waits for do. -/
def EnsuresAccounted (R : Registry) (q : Task) : Prop :=
  R.Ensures (fun _ => True) TaskAccounted (R.work q) (TaskAccounted q)

/-- A variable is entered only if it is not known yet, and then its key is recorded. -/
theorem ensuresAccounted_binding (R : Registry) (s : ResolverState) (r : VariableRef)
    (span : Span) : R.EnsuresAccounted (.binding s r span) := by
  rw [EnsuresAccounted, work]
  simp only [Ensures]
  split
  · exact ensures_judge.mpr ((accounted_judge _ s).called _)
  · next unknown =>
    split
    · exact ensures_judge.mpr ((accounted_judge _ s).called _)
    · refine ⟨trivial, fun x _ body => ?_⟩
      rw [Ensures, List.append_nil]
      exact (Accounted.body (Memo.find?_eq_none.mp unknown) body).called _

/-- Type by type of expression, from what is accounted for its operands. -/
theorem ensuresAccounted_type (R : Registry) (s : ResolverState) (C : String) (e : Expr) :
    R.EnsuresAccounted (.type s C e) := by
  cases e with
  | field name span => exact ensures_judge.mpr (accounted_judge _ s)
  | call name span =>
      rw [EnsuresAccounted, work]
      split
      · exact ensures_last trivial fun x _ accounted => accounted
      · exact ensures_judge.mpr (accounted_judge _ s)
  | collect lhs rhs span =>
      apply ensures_await_andThen trivial
      · intro x t _ left ht
        exact ensures_last trivial fun y _ right => left.after ht right
      · exact fun x es _ left he => left.passed he
  | combine op lhs rhs span =>
      refine ⟨trivial, fun x _ left => ⟨trivial, fun y _ right => ?_⟩⟩
      refine ensures_both.mpr ⟨fun t u ht hu => ensures_judge.mpr ?_, fun _ => ?_⟩
      · exact left.after ht (right.after hu (accounted_judge _ y.state))
      · rw [List.append_nil]
        exact left.both right
  | closure inner span | restrict inner subtype span =>
      apply ensures_await_andThen trivial
      · exact fun x t _ part ht =>
          ensures_judge.mpr (part.after ht (accounted_judge _ x.state))
      · exact fun x es _ part he => part.passed he

theorem ensuresAccounted_step (R : Registry) (s : ResolverState) (C : String) (e : Expr) :
    R.EnsuresAccounted (.step s C e) := by
  cases e with
  | collect lhs rhs span =>
      apply ensures_await_andThen trivial
      · intro x t _ left ht
        exact ensures_last trivial fun y _ right => left.after ht right
      · exact fun x es _ left he => left.passed he
  | field _ _ | call _ _ | combine _ _ _ _ | closure _ _ | restrict _ _ _ =>
      exact ensures_judge.mpr (accounted_judge _ s)

/-- The trace accounts for whatever the resolver answers. -/
theorem resolve_accounted (R : Registry) (q : Task) : Accounted q.known (R.resolve q) := by
  refine R.resolve_induction (fun _ => True) TaskAccounted (fun q _ => ?_) q trivial
  cases q with
  | binding s r span => exact ensuresAccounted_binding R s r span
  | type s C e => exact ensuresAccounted_type R s C e
  | step s C e => exact ensuresAccounted_step R s C e

/-! ### Sessions -/

/-- What happens while a question is answered. -/
def askEvents (R : Registry) (m : Memo) (q : Query) : List Event :=
  (R.resolve (q.task (.idle m))).trace

/-- What happens question by question. -/
def askAllEvents (R : Registry) (m : Memo) : List Query → List (List Event)
  | [] => []
  | q :: qs => R.askEvents m q :: R.askAllEvents (R.ask m q).2 qs

end Registry

/-- The causes that a reply reports. -/
def Reply.causes : Reply → List ResolveError
  | .type x => x.causes
  | .step x => x.causes

namespace Registry

theorem causes_reply (q : Task) (x : Resolution q.Target) : (q.reply x).causes = x.causes := by
  cases q <;> rfl

/-- One query: its causes are those found, and the keys that it adds are those entered. -/
theorem ask_accounted (R : Registry) (m : Memo) (q : Query) :
    (R.ask m q).1.causes = causes (R.askEvents m q) ∧
      (R.ask m q).2.keys = m.keys ++ entered (R.askEvents m q) ∧
      (m.keys.Nodup → (R.ask m q).2.keys.Nodup) := by
  obtain ⟨found, keys, nodup⟩ := R.resolve_accounted (q.task (.idle m))
  rw [Task.known, Query.state_task] at keys nodup
  exact ⟨(causes_reply _ _).trans found, keys, nodup⟩

/-- Every cause that is found while a question is answered is in the reply, in that order. -/
theorem askAll_causes (R : Registry) (m : Memo) (qs : List Query) :
    List.Forall₂ (fun reply events => reply.causes = causes events) (R.askAll m qs)
      (R.askAllEvents m qs) := by
  induction qs generalizing m with
  | nil => exact .nil
  | cons q qs ih => exact .cons (R.ask_accounted m q).1 (ih (R.ask m q).2)

/-- In a session no body is entered twice, and none of a variable that was known before. -/
theorem nodup_entered (R : Registry) {m : Memo} (known : m.keys.Nodup) (qs : List Query) :
    (m.keys ++ entered (R.askAllEvents m qs).flatten).Nodup := by
  induction qs generalizing m with
  | nil => simpa [askAllEvents] using known
  | cons q qs ih =>
      obtain ⟨_, keys, nodup⟩ := R.ask_accounted m q
      have rest := ih (nodup known)
      rw [keys, List.append_assoc] at rest
      rw [askAllEvents, List.flatten_cons, entered_append]
      exact rest

end Registry

end MetaAttack
