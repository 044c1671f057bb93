import MetaAttack.Typing.Work

/-!
# Resolving expressions

The calls of a resolver are answered by running the work on them. That this ends is not said by the
work itself: a call of a variable goes on with an expression of any size. It follows from a measure
that each call lowers, the number of declared variables that are not known, and for the same number
the size of the expression.

## Implementation notes

What is known changes between two calls of one task, so the measure of the second call depends on
how the first one ended. How work ends is therefore a relation first, `Ends`, and what it waits for
another one, `Waits`; `Registry.resolve` is run along them. Whatever holds of all calls is shown by
one rule, `Registry.resolve_induction`: it is enough that the work on a call keeps to it if the
calls that it waits for do.
-/

namespace MetaAttack

/-- The number of nodes of an expression. -/
def Expr.size : Expr → Nat
  | .field _ _ | .call _ _ => 1
  | .collect l r _ | .combine _ l r _ => l.size + r.size + 1
  | .closure e _ | .restrict e _ _ => e.size + 1

namespace Task

/-- What is known when the call is made. -/
def known (q : Task) : Memo := q.state.memo

/-- The size of the expression that is asked about. A variable is asked about by its name. -/
def size : Task → Nat
  | binding _ _ _ => 0
  | type _ _ e | step _ _ e => e.size

/-- The number of declared variables that are not known, and the size of the expression. -/
def measure (R : Registry) (q : Task) : Nat × Nat := (q.known.pending R, q.size)

end Task

/-- An answer together with what happened until it was there. -/
structure Run (α : Type) extends Answer α where
  trace : List Event

namespace Registry

/-! ### Runs -/

/-- The work ends in the run, each call that it waits for having ended in one. -/
inductive Ends (R : Registry) : {α : Type} → Work α → Run α → Prop
  | done {α : Type} (a : Answer α) : R.Ends (.done a) ⟨a, []⟩
  | note {α : Type} {e : Event} {w : Work α} {x : Run α} (rest : R.Ends w x) :
      R.Ends (.note e w) ⟨x.toAnswer, e :: x.trace⟩
  | await {α : Type} {q : Task} {next : Answer q.Target → Work α} {x : Run q.Target} {y : Run α}
      (first : R.Ends (R.work q) x) (rest : R.Ends (next x.toAnswer) y) :
      R.Ends (.await q next) ⟨y.toAnswer, x.trace ++ y.trace⟩

/-- The work comes to wait for the call. -/
inductive Waits (R : Registry) : {α : Type} → Work α → Task → Prop
  | here {α : Type} {q : Task} {next : Answer q.Target → Work α} : R.Waits (.await q next) q
  | noted {α : Type} {q : Task} {e : Event} {w : Work α} (rest : R.Waits w q) :
      R.Waits (.note e w) q
  | later {α : Type} {q q' : Task} {next : Answer q.Target → Work α} {x : Run q.Target}
      (first : R.Ends (R.work q) x) (rest : R.Waits (next x.toAnswer) q') :
      R.Waits (.await q next) q'

/-- A task ends in the run. -/
def Finishes (R : Registry) (q : Task) (x : Run q.Target) : Prop := R.Ends (R.work q) x

/-- A task calls for another one. -/
def Calls (R : Registry) (q q' : Task) : Prop := R.Waits (R.work q) q'

section Ends

variable {R : Registry} {α : Type} {w : Work α} {x y : Run α} {a : Answer α} {e : Event} {q : Task}
variable {next : Answer q.Target → Work α}

theorem ends_done_iff : R.Ends (.done a) x ↔ x = ⟨a, []⟩ := by
  constructor
  · rintro (_ | _)
    rfl
  · rintro rfl
    exact .done a

theorem ends_note_iff :
    R.Ends (.note e w) x ↔ ∃ y, R.Ends w y ∧ x = ⟨y.toAnswer, e :: y.trace⟩ := by
  constructor
  · rintro (_ | rest)
    exact ⟨_, rest, rfl⟩
  · rintro ⟨y, rest, rfl⟩
    exact .note rest

/-- A question is answered first, and what comes of the answer ends the work. -/
theorem ends_await_iff :
    R.Ends (.await q next) x ↔ ∃ y z, R.Finishes q y ∧ R.Ends (next y.toAnswer) z ∧
      x = ⟨z.toAnswer, y.trace ++ z.trace⟩ := by
  constructor
  · rintro (_ | _ | ⟨first, rest⟩)
    exact ⟨_, _, first, rest, rfl⟩
  · rintro ⟨y, z, first, rest, rfl⟩
    exact .await first rest

/-- Work ends in one run at most. -/
theorem Ends.unique (h : R.Ends w x) (h' : R.Ends w y) : x = y := by
  induction h with
  | done a => exact (ends_done_iff.mp h').symm
  | note _ ih =>
      obtain ⟨z, rest, rfl⟩ := ends_note_iff.mp h'
      obtain rfl := ih rest
      rfl
  | await _ _ ihFirst ihRest =>
      obtain ⟨z, z', first, rest, rfl⟩ := ends_await_iff.mp h'
      obtain rfl := ihFirst first
      obtain rfl := ihRest rest
      rfl

end Ends

/-! ### What work ensures -/

/-- The work waits only for calls that meet `Pre`, and ends in runs that meet the last condition, as
long as the calls that it waits for end in runs that meet `Post`. -/
def Ensures (R : Registry) (Pre : Task → Prop) (Post : (q : Task) → Run q.Target → Prop)
    {α : Type} : Work α → (Run α → Prop) → Prop
  | .done a, Q => Q ⟨a, []⟩
  | .note e w, Q => R.Ensures Pre Post w fun x => Q ⟨x.toAnswer, e :: x.trace⟩
  | .await q next, Q =>
      Pre q ∧ ∀ x, R.Finishes q x → Post q x →
        R.Ensures Pre Post (next x.toAnswer) fun y => Q ⟨y.toAnswer, x.trace ++ y.trace⟩

section Ensures

variable {R : Registry} {Pre Pre' : Task → Prop} {Post : (q : Task) → Run q.Target → Prop}
variable {α β γ : Type} {w : Work α} {q : Task}

/-- More may be relied on. -/
theorem Ensures.imp {Q : Run α → Prop} (h : R.Ensures Pre Post w Q)
    (imp : ∀ q, Pre q → Pre' q) : R.Ensures Pre' Post w Q := by
  induction w generalizing Q with
  | done a => exact h
  | note e w ih => exact ih h
  | await q next ih =>
      exact ⟨imp q h.1, fun x ends post => ih x.toAnswer (h.2 x ends post)⟩

theorem ensures_judge {x : Resolution α} {s : ResolverState} {Q : Run α → Prop} :
    R.Ensures Pre Post (.judge x s) Q ↔ Q ⟨⟨x, s⟩, x.events⟩ := by
  rw [Work.judge]
  generalize x.events = es
  induction es generalizing Q with
  | nil => rfl
  | cons e es ih => exact ih (Q := fun x => Q ⟨x.toAnswer, e :: x.trace⟩)

/-- Either the first operand has a value to go on with, or its errors are passed on. -/
theorem ensures_andThen {a : Answer α} {next : α → ResolverState → Work β} {Q : Run β → Prop} :
    R.Ensures Pre Post (a.andThen next) Q ↔
      (∀ t, a.result = .ok t → R.Ensures Pre Post (next t a.state) Q) ∧
        ∀ causes, a.result = .error causes → Q ⟨⟨.error causes, a.state⟩, []⟩ := by
  rw [Answer.andThen]
  cases a.result with
  | ok t => simp
  | error causes => simp [Ensures]

theorem ensures_both {a : Answer α} {b : Answer β} {next : α → β → ResolverState → Work γ}
    {Q : Run γ → Prop} :
    R.Ensures Pre Post (a.both b next) Q ↔
      (∀ t u, a.result = .ok t → b.result = .ok u →
        R.Ensures Pre Post (next t u b.state) Q) ∧
      ((∀ t u, a.result = .ok t → b.result ≠ .ok u) →
        Q ⟨⟨.error (a.result.causes ++ b.result.causes), b.state⟩, []⟩) := by
  rw [Answer.both]
  cases a.result with
  | ok t => cases b.result <;> simp [Ensures]
  | error causes => simp [Ensures]

/-- A task that is waited for last is the answer. -/
theorem ensures_last {Q : Run q.Target → Prop} (pre : Pre q)
    (h : ∀ x, R.Finishes q x → Post q x → Q x) : R.Ensures Pre Post (.await q .done) Q := by
  refine ⟨pre, fun x finishes post => ?_⟩
  rw [Ensures, List.append_nil]
  exact h x finishes post

/-- Work goes on with the result of a task, or ends with the causes for which there is none. -/
theorem ensures_await_andThen {next : q.Target → ResolverState → Work α} {Q : Run α → Prop}
    (pre : Pre q)
    (ok : ∀ x t, R.Finishes q x → Post q x → x.result = .ok t →
      R.Ensures Pre Post (next t x.state) fun y => Q ⟨y.toAnswer, x.trace ++ y.trace⟩)
    (error : ∀ x causes, R.Finishes q x → Post q x → x.result = .error causes →
      Q ⟨⟨.error causes, x.state⟩, x.trace⟩) :
    R.Ensures Pre Post (.await q fun a => a.andThen next) Q := by
  refine ⟨pre, fun x finishes post => ensures_andThen.mpr ⟨fun t ht => ?_, fun causes hc => ?_⟩⟩
  · exact ok x t finishes post ht
  · rw [List.append_nil]
    exact error x causes finishes post hc

/-- If the work on every call with `Pre` keeps to its `Post`, then what it ensures it comes to. -/
theorem Ends.meets (h : ∀ q, Pre q → R.Ensures Pre Post (R.work q) (Post q)) {x : Run α}
    (ends : R.Ends w x) : ∀ {Q : Run α → Prop}, R.Ensures Pre Post w Q → Q x := by
  induction ends with
  | done a => exact fun ensures => ensures
  | note _ ih => exact fun ensures => ih ensures
  | await first _ ihFirst ihRest =>
      intro Q ensures
      have post := ihFirst (h _ ensures.1)
      exact ihRest (ensures.2 _ first post)

/-- Tasks that ensure what they are to, if those they ask for do, do so. -/
theorem Finishes.meets (h : ∀ q, Pre q → R.Ensures Pre Post (R.work q) (Post q))
    {x : Run q.Target} (finishes : R.Finishes q x) (pre : Pre q) : Post q x :=
  Ends.meets h finishes (h q pre)

theorem Ensures.imp_post {Q Q' : Run α → Prop} (h : R.Ensures Pre Post w Q)
    (imp : ∀ x, Q x → Q' x) : R.Ensures Pre Post w Q' := by
  induction w generalizing Q Q' with
  | done a => exact imp _ h
  | note e w ih => exact ih h fun x => imp _
  | await q next ih =>
      exact ⟨h.1, fun x ends post => ih x.toAnswer (h.2 x ends post) fun y => imp _⟩

theorem ensures_trivial (w : Work α) : R.Ensures (fun _ => True) Post w fun _ => True := by
  induction w with
  | done a => exact trivial
  | note e w ih => exact ih
  | await q next ih => exact ⟨trivial, fun x _ _ => ih x.toAnswer⟩

/-- A condition that is not met where the work begins may be assumed of it. -/
theorem ensures_of_imp {P : Prop} {Q : Run α → Prop}
    (h : P → R.Ensures (fun _ => True) Post w Q) :
    R.Ensures (fun _ => True) Post w fun x => P → Q x := by
  rcases Classical.em P with hP | hP
  · exact (h hP).imp_post fun x hx _ => hx
  · exact (ensures_trivial w).imp_post fun x _ hP' => absurd hP' hP

/-- What the work on a task ensures whatever the calls that it waits for come to. -/
theorem Finishes.of_ensures {x : Run q.Target} (finishes : R.Finishes q x)
    {Q : Run q.Target → Prop}
    (h : R.Ensures (fun _ => True) (fun _ _ => True) (R.work q) Q) : Q x :=
  Ends.meets (fun q _ => ensures_trivial (R.work q)) finishes h

/-- What is asked for is asked only where it may be. -/
theorem Waits.meets (post : ∀ q x, R.Finishes q x → Post q x) (waits : R.Waits w q) :
    ∀ {Q : Run α → Prop}, R.Ensures Pre Post w Q → Pre q := by
  induction waits with
  | here => exact fun ensures => ensures.1
  | noted _ ih => exact fun ensures => ih ensures
  | later first _ ih => exact fun ensures => ih (ensures.2 _ first (post _ _ first))

end Ensures

end Registry

/-! ### The measure -/

namespace ResolverState

/-- Nothing is forgotten from one state to the other, and the same variables are being worked
out. -/
structure Grows (s s' : ResolverState) : Prop where
  keys : s.memo.keys ⊆ s'.memo.keys
  stack : s'.stack = s.stack

theorem Grows.refl (s : ResolverState) : s.Grows s := ⟨List.Subset.refl _, rfl⟩

/-- Nothing that was known is forgotten later. -/
theorem Grows.trans {s₁ s₂ s₃ : ResolverState} (h : s₁.Grows s₂) (h' : s₂.Grows s₃) :
    s₁.Grows s₃ :=
  ⟨List.Subset.trans h.keys h'.keys, h'.stack.trans h.stack⟩

variable {s s' : ResolverState} {r : VariableRef}

theorem keys_enter (s : ResolverState) (r : VariableRef) : s.memo.keys ⊆ (s.enter r).memo.keys :=
  fun _ known => Memo.mem_keys_record.mpr (.inr known)

theorem mem_keys_enter (s : ResolverState) (r : VariableRef) : r ∈ (s.enter r).memo.keys :=
  Memo.mem_keys_record.mpr (.inl rfl)

theorem stack_leave (hs : s'.stack = s.stack ++ [r]) (x : Resolution String) :
    (s'.leave r x).stack = s.stack := by
  rw [leave, hs, List.dropLast_concat]

/-- Entering a variable and leaving it again forgets nothing and gives the stack back. -/
theorem Grows.leave (h : (s.enter r).Grows s') (x : Resolution String) :
    s.Grows (s'.leave r x) where
  keys := by
    intro q known
    exact Memo.mem_keys_record.mpr (.inr (h.keys (keys_enter s r known)))
  stack := stack_leave h.stack x

end ResolverState

namespace Registry

variable {R : Registry} {q q' : Task} {s : ResolverState} {r : VariableRef} {C : String} {e : Expr}

/-- The state that a run leaves has grown from the state that the call met. -/
def Grown (q : Task) (x : Run q.Target) : Prop := q.state.Grows x.state

/-- What a task may call for. A variable calls for its body, and only if it is declared and not
known; otherwise nothing is forgotten and the expression is smaller. -/
def Callee (R : Registry) : Task → Task → Prop
  | .binding s r _, q' =>
      r ∉ s.memo.keys ∧
        ∃ v, R.declaredVariable? r = some v ∧ q' = .type (s.enter r) r.asset v.expr
  | .type s _ e, q' | .step s _ e, q' => s.memo.keys ⊆ q'.known.keys ∧ q'.size < e.size

theorem grown_binding (R : Registry) (s : ResolverState) (r : VariableRef) (span : Span) :
    R.Ensures (R.Callee (.binding s r span)) Grown (R.work (.binding s r span))
      (Grown (.binding s r span)) := by
  rw [work]
  simp only [Ensures]
  split
  · exact ensures_judge.mpr (.refl s)
  · next unknown =>
    split
    · exact ensures_judge.mpr (.refl s)
    · next v hv =>
      refine ⟨⟨Memo.find?_eq_none.mp unknown, v, hv, rfl⟩, fun x _ body => ?_⟩
      exact ResolverState.Grows.leave body x.result

theorem left_lt (l r : Expr) : l.size < l.size + r.size + 1 :=
  Nat.lt_succ_of_le (Nat.le_add_right _ _)

theorem right_lt (l r : Expr) : r.size < l.size + r.size + 1 :=
  Nat.lt_succ_of_le (Nat.le_add_left _ _)

theorem grown_type (R : Registry) (s : ResolverState) (C : String) (e : Expr) :
    R.Ensures (R.Callee (.type s C e)) Grown (R.work (.type s C e)) (Grown (.type s C e)) := by
  cases e with
  | field name span => exact ensures_judge.mpr (.refl s)
  | call name span =>
      rw [work]
      split
      · exact ensures_last ⟨List.Subset.refl _, Nat.one_pos⟩ fun x _ grown => grown
      · exact ensures_judge.mpr (.refl s)
  | collect lhs rhs span =>
      apply ensures_await_andThen ⟨List.Subset.refl _, left_lt lhs rhs⟩
      · intro x t _ left _
        exact ensures_last ⟨left.keys, right_lt lhs rhs⟩ fun y _ right => left.trans right
      · exact fun x causes _ left _ => left
  | combine op lhs rhs span =>
      refine ⟨⟨List.Subset.refl _, left_lt lhs rhs⟩, fun x _ left => ?_⟩
      refine ⟨⟨left.keys, right_lt lhs rhs⟩, fun y _ right => ?_⟩
      have both := left.trans right
      exact ensures_both.mpr ⟨fun _ _ _ _ => ensures_judge.mpr both, fun _ => both⟩
  | closure inner span | restrict inner subtype span =>
      apply ensures_await_andThen ⟨List.Subset.refl _, Nat.lt_succ_self _⟩
      · exact fun x t _ part _ => ensures_judge.mpr part
      · exact fun x causes _ part _ => part

theorem grown_step (R : Registry) (s : ResolverState) (C : String) (e : Expr) :
    R.Ensures (R.Callee (.step s C e)) Grown (R.work (.step s C e)) (Grown (.step s C e)) := by
  cases e with
  | collect lhs rhs span =>
      apply ensures_await_andThen ⟨List.Subset.refl _, left_lt lhs rhs⟩
      · intro x t _ left _
        exact ensures_last ⟨left.keys, right_lt lhs rhs⟩ fun y _ right => left.trans right
      · exact fun x causes _ left _ => left
  | field _ _ | call _ _ | combine _ _ _ _ | closure _ _ | restrict _ _ _ =>
      exact ensures_judge.mpr (.refl s)

/-- Every task leaves the stack as it was and forgets nothing, whatever it asks. -/
theorem grown_work (R : Registry) (q : Task) :
    R.Ensures (R.Callee q) Grown (R.work q) (Grown q) := by
  cases q with
  | binding s r span => exact grown_binding R s r span
  | type s C e => exact grown_type R s C e
  | step s C e => exact grown_step R s C e

/-- However a task ends, the state has grown. -/
theorem Finishes.grown {x : Run q.Target} (h : R.Finishes q x) : Grown q x := by
  have anyTask : ∀ q, True → R.Ensures (fun _ => True) Grown (R.work q) (Grown q) :=
    fun q _ => (grown_work R q).imp fun _ _ => trivial
  exact h.meets anyTask trivial

theorem Calls.callee (h : R.Calls q q') : R.Callee q q' :=
  Waits.meets (fun _ _ finishes => finishes.grown) h (grown_work R q)

/-- Every call lowers the measure. -/
theorem Calls.measure_lt (h : R.Calls q q') :
    Prod.Lex (· < ·) (· < ·) (q'.measure R) (q.measure R) := by
  have callee := h.callee
  cases q with
  | binding s r span =>
      obtain ⟨unknown, v, hv, rfl⟩ := callee
      exact .left _ _ (Memo.pending_record_lt _ (mem_variableRefs_of_declared hv) unknown)
  | type s C e | step s C e =>
      exact Prod.Lex.right' _ (Memo.pending_le_of_keys_subset R callee.1) callee.2

end Registry

/-! ### The resolver -/

namespace Work

variable {R : Registry} {α : Type} {q : Task}

/-- Runs the work on a task, given the runs of the tasks that it calls for. -/
def finish (runs : (q' : Task) → R.Calls q q' → {x : Run q'.Target // R.Finishes q' x}) :
    (w : Work α) → (∀ q', R.Waits w q' → R.Calls q q') → Run α
  | .done a, _ => ⟨a, []⟩
  | .note e w, called =>
      let x := w.finish runs fun q' waits => called q' (.noted waits)
      ⟨x.toAnswer, e :: x.trace⟩
  | .await q' next, called =>
      let x := runs q' (called q' .here)
      let y := (next x.1.toAnswer).finish runs fun q'' waits => called q'' (.later x.2 waits)
      ⟨y.toAnswer, x.1.trace ++ y.trace⟩

/-- Answering each question by its run is a run of the work. -/
theorem ends_finish (runs : (q' : Task) → R.Calls q q' → {x : Run q'.Target // R.Finishes q' x})
    (w : Work α) (called : ∀ q', R.Waits w q' → R.Calls q q') :
    R.Ends w (w.finish runs called) := by
  induction w with
  | done a => exact .done a
  | note e w ih => exact .note (ih _)
  | await q' next ih => exact .await (runs q' _).2 (ih _ _)

end Work

namespace Registry

/-- A run of the task. -/
def resolution (R : Registry) (q : Task) : {x : Run q.Target // R.Finishes q x} :=
  ⟨(R.work q).finish (fun q' _ => R.resolution q') fun _ called => called, Work.ends_finish ..⟩
termination_by q.measure R
decreasing_by exact Calls.measure_lt ‹_›

/-- What a task comes to, and what happens on the way. -/
def resolve (R : Registry) (q : Task) : Run q.Target := (R.resolution q).1

/-- The resolver runs its task to the end. -/
theorem finishes_resolve (R : Registry) (q : Task) : R.Finishes q (R.resolve q) :=
  (R.resolution q).2

variable {R : Registry} {q : Task}

/-- A task ends in the resolver's run and in no other way. -/
theorem finishes_iff {x : Run q.Target} : R.Finishes q x ↔ x = R.resolve q := by
  constructor
  · exact fun h => h.unique (finishes_resolve R q)
  · rintro rfl
    exact finishes_resolve R q

/-- Induction along the recursion of the resolver: what the work on every task ensures, if the tasks
that it waits for do, holds of every run. -/
theorem resolve_induction (R : Registry) (Pre : Task → Prop)
    (Post : (q : Task) → Run q.Target → Prop)
    (h : ∀ q, Pre q → R.Ensures Pre Post (R.work q) (Post q)) (q : Task) (pre : Pre q) :
    Post q (R.resolve q) :=
  (finishes_resolve R q).meets h pre

/-- The resolver gives its stack back and keeps what it knew. -/
theorem grows_resolve (R : Registry) (q : Task) : q.state.Grows (R.resolve q).state :=
  (finishes_resolve R q).grown

/-! ### Questions -/

/-- The type of the variable `r`, asked for at `span` while those on the stack are being worked
out. -/
def typeOfVariable (R : Registry) (stack : List VariableRef) (m : Memo) (r : VariableRef)
    (span : Span) : Run String :=
  R.resolve (.binding ⟨m, stack⟩ r span)

/-- The type of an expression in the context of an asset. -/
def typeOf (R : Registry) (stack : List VariableRef) (m : Memo) (context : String) (e : Expr) :
    Run String :=
  R.resolve (.type ⟨m, stack⟩ context e)

/-- The attack step that an expression ends in, in the context of an asset. -/
def stepOf (R : Registry) (m : Memo) (context : String) (e : Expr) : Run StepRef :=
  R.resolve (.step (.idle m) context e)

end Registry

end MetaAttack
