import Mathlib.Data.List.Chain
import MetaAttack.Proofs.Events
import MetaAttack.Proofs.Stack

/-!
# Cycles of variables

A variable is reported as part of a cycle only where there is one: from it on, each variable of the
chain has a call in its body that means the next one, and the last one calls the first. Variables
are told apart by the asset that declares them, so the same name on another asset does not make a
chain longer or shorter.

## Implementation notes

A call means a variable in the context in which its expression is typed, which changes along an
expression. `Schema.Part` follows it. That a call on the stack is made in that context is what the
exactness of the resolver gives; so the two invariants of its memory, `Memo.Faithful` and
`ResolverState.InStep`, are carried along together.
-/

namespace MetaAttack

open Relation

/-- What typing the first question takes short of entering the body of a variable: the second one is
a part of it, in the context that the part has. -/
def Schema.Part (S : Schema) (q q' : String × Expr) : Prop :=
  S.Needs q q' ∧ ∀ name span, q.2 ≠ .call name span

namespace Registry

variable {R : Registry} {stack : List VariableRef} {s : ResolverState} {m : Memo}
variable {r k : VariableRef} {C : String} {e : Expr} {q q' : String × Expr} {span : Span}

/-! ### Rings -/

/-- The question is a part of the body of the variable. -/
def Holds (R : Registry) (k : VariableRef) (q : String × Expr) : Prop :=
  ∃ v, R.declaredVariable? k = some v ∧ ReflTransGen R.schema.Part (k.asset, v.expr) q

/-- The body of the first variable contains a call that means the second one. -/
def Uses (R : Registry) (k r : VariableRef) : Prop :=
  ∃ C name span a v, R.Holds k (C, .call name span) ∧
    R.findVariable? C name.name = some (a, v) ∧ r = ⟨a.name, name.name⟩

/-- The variables of a cycle, from one of them on until it would come again. -/
structure RingFrom (R : Registry) (r : VariableRef) (rs : List VariableRef) : Prop where
  start : rs.head? = some r
  distinct : rs.Nodup
  around : (rs ++ [r]).IsChain R.Uses

/-- A report of a cycle names the variables of one, from the reported variable on and back to it. -/
def Real (R : Registry) : ResolveError → Prop
  | .variableCycle name chain _ => ∃ r rs, R.RingFrom r rs ∧ name = r.name ∧
      chain = rs.map VariableRef.name ++ [r.name]
  | _ => True

/-- Each variable on the stack uses the next one. -/
def Linked (R : Registry) (stack : List VariableRef) : Prop := stack.IsChain R.Uses

/-- From a variable that is met again, the stack inward is a ring. -/
theorem ringFrom_of_linked {outer inner : List VariableRef}
    (linked : R.Linked (outer ++ r :: inner ++ [r])) (nodup : (outer ++ r :: inner).Nodup) :
    R.RingFrom r (r :: inner) where
  start := rfl
  distinct := (List.nodup_append.mp nodup).2.1
  around := by
    rw [Linked, List.append_assoc] at linked
    exact linked.right_of_append

/-- A call of a variable that is being evaluated closes a ring through everything on the stack above
it. -/
theorem real_of_mem (linked : R.Linked (s.stack ++ [r])) (nodup : s.stack.Nodup)
    (hr : r ∈ s.stack) : R.Real (.variableCycle r.name (s.cycleNames r) span) := by
  obtain ⟨outer, inner, hs, names⟩ := ResolverState.cycleNames_of_mem nodup hr
  rw [hs] at linked nodup
  exact ⟨r, r :: inner, ringFrom_of_linked linked nodup, rfl, names⟩

/-! ### Where the resolver stands -/

/-- Where work on a question stands: each variable on the stack uses the next one, and the question
is a part of the body of the innermost one. -/
structure Inside (R : Registry) (stack : List VariableRef) (q : String × Expr) : Prop where
  linked : R.Linked stack
  holds : ∀ k ∈ stack.getLast?, R.Holds k q

/-- Going into a part of an expression that is no call stays in the same body. -/
theorem Inside.part (h : R.Inside stack q) (hq : R.schema.Needs q q')
    (noCall : ∀ name span, q.2 ≠ .call name span) : R.Inside stack q' where
  linked := h.linked
  holds := by
    intro k hk
    obtain ⟨v, hv, path⟩ := h.holds k hk
    exact ⟨v, hv, path.tail ⟨hq, noCall⟩⟩

/-- The variable that a call means is used by the innermost one. -/
theorem Inside.call {name : Ident} {a : AssetEntry} {v : VariableEntry}
    (h : R.Inside stack (C, .call name span)) (hv : R.findVariable? C name.name = some (a, v)) :
    R.Linked (stack ++ [⟨a.name, name.name⟩]) := by
  refine List.isChain_append.mpr ⟨h.linked, .singleton _, fun k hk r hr => ?_⟩
  obtain rfl : ⟨a.name, name.name⟩ = r := by simpa using hr
  exact ⟨C, name, span, a, v, h.holds k hk, hv, rfl⟩

/-- On entering a variable, its whole body is inside. -/
theorem Inside.body {v : VariableEntry} (linked : R.Linked (stack ++ [r]))
    (hv : R.declaredVariable? r = some v) : R.Inside (stack ++ [r]) (r.asset, v.expr) where
  linked := linked
  holds := by
    intro k hk
    obtain rfl : r = k := by simpa using hk
    exact ⟨v, hv, .refl⟩

/-- Whatever a part needs is needed. -/
theorem needs_of_parts (h : ReflTransGen R.schema.Part q q') :
    ReflTransGen R.schema.Needs q q' := by
  revert h
  apply ReflTransGen.mono
  exact fun _ _ part => part.1

/-- What the innermost variable needs, the others need over the calls between them. -/
theorem Inside.leads (h : R.Inside stack q) : R.Leads stack q := by
  induction stack using List.reverseRecOn generalizing q with
  | nil => exact fun _ hk => by cases hk
  | append_singleton outer k ih =>
      obtain ⟨v, hv, parts⟩ := h.holds k List.getLast?_concat
      have body := needs_of_parts parts
      obtain ⟨linked, -, used⟩ := List.isChain_append.mp h.linked
      intro l hmem
      rcases List.mem_append.mp hmem with hl | hl
      · -- The variable before the innermost one stands at the call that led to it.
        obtain ⟨j, hj⟩ : ∃ j, j ∈ outer.getLast? :=
          ⟨_, List.getLast?_eq_getLast_of_ne_nil (List.ne_nil_of_mem hl)⟩
        obtain ⟨C, name, span, a, w, held, means, rfl⟩ := used j hj k rfl
        have call : R.Inside outer (C, .call name span) :=
          ⟨linked, fun i hi => Option.mem_unique hi hj ▸ held⟩
        obtain rfl : w = v := by simpa [declared_of_findVariable? means] using hv
        obtain ⟨u, hu, path⟩ := (ih call).step (needs_of_findVariable? means) l hl
        exact ⟨u, hu, path.trans body⟩
      · obtain rfl := List.mem_singleton.mp hl
        exact ⟨v, hv, body⟩

/-- The memory is right on what it decides, and in step with the stack. -/
structure Working (R : Registry) (s : ResolverState) : Prop where
  faithful : s.memo.Faithful R s.stack
  inStep : s.InStep R

namespace Working

/-- Entering a declared variable whose type is not known keeps the books in step: its key goes in
progress as its name goes on the stack. -/
theorem enter {v : VariableEntry} (h : R.Working s) (hm : s.memo.find? r = none)
    (hv : R.declaredVariable? r = some v) : R.Working (s.enter r) where
  faithful := h.faithful.enter r
  inStep := h.inStep.enter hm hv

/-- Where the resolver stands when a part has been worked out, and what the part came to. -/
theorem next {x : Run String} (h : R.Working s) (inside : R.Inside s.stack (C, e))
    (finishes : R.Finishes (.type s C e) x) :
    R.Working x.state ∧ x.state.stack = s.stack ∧ x.result.Exact (R.schema.HasType C e) := by
  have stack := finishes.grown.stack
  obtain rfl := finishes_iff.mp finishes
  obtain ⟨exact, faithful⟩ := resolve_exact (.type s C e) ⟨h.faithful, inside.leads⟩
  exact ⟨⟨faithful, (resolve_inStep _ h.inStep).state⟩, stack, exact⟩

end Working

/-! ### Reports -/

/-- Every cycle that is reported instead of a result is a real one. -/
def Honest (R : Registry) {α : Type} (x : Resolution α) : Prop := ∀ c ∈ x.causes, R.Real c

section

variable {α β : Type} {x : Resolution α} {c : ResolveError}

theorem honest_ok (t : α) : R.Honest (.ok t : Resolution α) := fun _ hc => by cases hc

/-- A single cause that is real. -/
theorem honest_error (h : R.Real c) : R.Honest (.error [c] : Resolution α) := by
  intro d hd
  rwa [List.mem_singleton.mp hd]

/-- Looking a field up blames names that are not there, and never a cycle. -/
theorem honest_typeOfField (C : String) (name : Ident) : R.Honest (R.typeOfField C name) := by
  rw [typeOfField]
  split
  · exact honest_ok _
  · exact honest_error trivial

theorem honest_typeOfClosure (C : String) (span : Span) (t : String) :
    R.Honest (R.typeOfClosure C span t) := by
  rw [typeOfClosure]
  split
  · exact honest_ok _
  · exact honest_error trivial

theorem honest_typeOfRestriction (A : Ident) (t : String) :
    R.Honest (R.typeOfRestriction A t) := by
  rw [typeOfRestriction]
  split
  · exact honest_error trivial
  · split
    · exact honest_ok _
    · exact honest_error trivial

/-- Operands without a common ancestor are no cycle either. -/
theorem honest_typeOfSet (span : Span) (left right : String) :
    R.Honest (R.typeOfSet span left right) := by
  rw [typeOfSet]
  split
  · exact honest_ok _
  · exact honest_error trivial

theorem honest_stepOfField (C : String) (name : Ident) : R.Honest (R.stepOfField C name) := by
  rw [stepOfField]
  split
  · exact honest_ok _
  · exact honest_error trivial

/-- A remembered failure is blamed anew. One that is still in progress is a cycle, which the stack
shows. -/
theorem honest_remembered {v : Verdict} (working : R.Working s)
    (linked : R.Linked (s.stack ++ [r])) (hv : s.memo.find? r = some v) :
    R.Honest (s.remembered r span v) := by
  cases v with
  | typed t => exact honest_ok t
  | failed => exact fun _ hc => by cases hc
  | undecided =>
      have hr := (working.inStep.undecided r).mp hv
      exact honest_error (real_of_mem linked working.inStep.nodup hr)

end

/-! ### The resolver -/

/-- Where a task stands: a variable is used by the innermost one on the stack, and an expression is
a part of its body. -/
def Stands (R : Registry) : Task → Prop
  | .binding s r _ => R.Working s ∧ R.Linked (s.stack ++ [r])
  | .type s C e | .step s C e => R.Working s ∧ R.Inside s.stack (C, e)

/-- The work reports only real cycles, if the tasks that it waits for do. -/
def EnsuresHonest (R : Registry) {α : Type} (w : Work α) : Prop :=
  R.Ensures R.Stands (fun _ x => R.Honest x.result) w fun y => R.Honest y.result

section

variable {α : Type} {lhs rhs : Expr}

theorem ensuresHonest_judge {x : Resolution α} (h : R.Honest x) : R.EnsuresHonest (.judge x s) :=
  ensures_judge.mpr h

/-- The last question of a task answers for it. -/
theorem ensuresHonest_last {q : Task} (stands : R.Stands q) : R.EnsuresHonest (.await q .done) :=
  ensures_last stands fun _ _ honest => honest

/-- Where the first operand has a type, the second question starts with the stack unchanged. -/
theorem ensuresHonest_andThen {next : String → ResolverState → Work α} (working : R.Working s)
    (inside : R.Inside s.stack (C, e))
    (h : ∀ t s', R.schema.HasType C e t → R.Working s' → s'.stack = s.stack →
      R.EnsuresHonest (next t s')) :
    R.EnsuresHonest (.await (.type s C e) fun a => a.andThen next) := by
  apply ensures_await_andThen ⟨working, inside⟩
  · intro x t finishes _ ht
    obtain ⟨working', same, exact⟩ := working.next inside finishes
    exact h t x.state ((exact t).mp ht) working' same
  · intro x causes _ honest hc
    rwa [hc] at honest

/-- The one place where a cycle can be reported, and where the stack grows. -/
theorem ensuresHonest_binding (working : R.Working s) (linked : R.Linked (s.stack ++ [r]))
    (span : Span) : R.EnsuresHonest (R.work (.binding s r span)) := by
  rw [EnsuresHonest, work]
  simp only [Ensures]
  split
  · next v hv => exact ensuresHonest_judge (honest_remembered working linked hv)
  · next unknown =>
    split
    · exact ensuresHonest_judge (honest_error trivial)
    · next v hv => exact ⟨⟨working.enter unknown hv, .body linked hv⟩, fun _ _ honest => honest⟩

/-- Both operands are asked for, whatever becomes of the first one. -/
theorem ensuresHonest_combine {op : SetOp} (working : R.Working s)
    (inside : R.Inside s.stack (C, .combine op lhs rhs span)) :
    R.EnsuresHonest (R.work (.type s C (.combine op lhs rhs span))) := by
  have left := inside.part .combineLeft (by simp)
  refine ⟨⟨working, left⟩, fun x finishes honest => ?_⟩
  obtain ⟨working', same, -⟩ := working.next left finishes
  rw [← same] at inside
  refine ⟨⟨working', inside.part .combineRight (by simp)⟩, fun y _ honest' => ?_⟩
  refine ensures_both.mpr ⟨fun t u _ _ => ?_, fun _ => ?_⟩
  · exact ensures_judge.mpr (honest_typeOfSet span t u)
  · exact List.forall_mem_append.mpr ⟨honest, honest'⟩

theorem ensuresHonest_type (working : R.Working s) (inside : R.Inside s.stack (C, e)) :
    R.EnsuresHonest (R.work (.type s C e)) := by
  cases e with
  | field name span => exact ensuresHonest_judge (honest_typeOfField C name)
  | call name span =>
      rw [work]
      split
      · next a v hv => exact ensuresHonest_last ⟨working, inside.call hv⟩
      · exact ensuresHonest_judge (honest_error trivial)
  | collect lhs rhs span =>
      apply ensuresHonest_andThen working (inside.part .collectLeft (by simp))
      intro t s' left working' same
      rw [← same] at inside
      exact ensuresHonest_last ⟨working', inside.part (.collectRight left) (by simp)⟩
  | combine op lhs rhs span => exact ensuresHonest_combine working inside
  | closure inner span =>
      apply ensuresHonest_andThen working (inside.part .closure (by simp))
      exact fun t s' _ _ _ => ensuresHonest_judge (honest_typeOfClosure C span t)
  | restrict inner A span =>
      apply ensuresHonest_andThen working (inside.part .restrict (by simp))
      exact fun t s' _ _ _ => ensuresHonest_judge (honest_typeOfRestriction A t)

theorem ensuresHonest_step (working : R.Working s) (inside : R.Inside s.stack (C, e)) :
    R.EnsuresHonest (R.work (.step s C e)) := by
  cases e with
  | field name span => exact ensuresHonest_judge (honest_stepOfField C name)
  | collect lhs rhs span =>
      apply ensuresHonest_andThen working (inside.part .collectLeft (by simp))
      intro t s' left working' same
      rw [← same] at inside
      exact ensuresHonest_last ⟨working', inside.part (.collectRight left) (by simp)⟩
  | call _ _ | combine _ _ _ _ | closure _ _ | restrict _ _ _ =>
      exact ensuresHonest_judge (honest_error trivial)

end

/-- Whatever the resolver is asked, the cycles that it reports are real. -/
theorem resolve_honest (q : Task) (stands : R.Stands q) : R.Honest (R.resolve q).result := by
  refine R.resolve_induction R.Stands (fun _ x => R.Honest x.result) (fun q stands => ?_) q stands
  cases q with
  | binding s r span => exact ensuresHonest_binding stands.1 stands.2 span
  | type s C e => exact ensuresHonest_type stands.1 stands.2
  | step s C e => exact ensuresHonest_step stands.1 stands.2

/-! ### Sessions -/

/-- With an empty stack there is no body to be inside of. -/
theorem inside_nil (q : String × Expr) : R.Inside [] q where
  linked := .nil
  holds := fun _ hk => by cases hk

theorem stands_task (working : R.Working (.idle m)) (q : Query) :
    R.Stands (q.task (.idle m)) := by
  cases q with
  | type C e => exact ⟨working, inside_nil _⟩
  | step C e => exact ⟨working, inside_nil _⟩
  | binding asset name => exact ⟨working, .singleton _⟩

/-- One query leaves the resolver idle with an honest memory. -/
theorem ask_honest (working : R.Working (.idle m)) (q : Query) :
    (∀ c ∈ (R.ask m q).1.causes, R.Real c) ∧ R.Working (.idle (R.ask m q).2) := by
  have honest := resolve_honest _ (stands_task working q)
  have settled := runQuery_settled working.inStep rfl q
  have state : (R.runQuery (.idle m) q).state = .idle (R.ask m q).2 := settled.state_eq
  refine ⟨?_, (ask_answered working.faithful q).2, state ▸ settled.inStep⟩
  intro c hc
  rw [ask, causes_reply] at hc
  exact honest c hc

/-- Every cycle that a session reports is real, by induction on its queries. -/
theorem askAll_honest (working : R.Working (.idle m)) (qs : List Query) :
    ∀ reply ∈ R.askAll m qs, ∀ c ∈ reply.causes, R.Real c := by
  induction qs generalizing m with
  | nil => exact fun _ hr => by cases hr
  | cons q qs ih =>
      obtain ⟨honest, working⟩ := ask_honest working q
      exact List.forall_mem_cons.mpr ⟨honest, ih working⟩

/-- What holds of a session with a resolver that starts without knowledge. -/
structure BooksKept (R : Registry) (qs : List Query) : Prop where
  /-- The stack changes nothing about the replies. -/
  replies : (R.runSession .start qs).map Turn.reply = R.askAll .empty qs
  calls : ∀ t ∈ R.runSession .start qs, ∀ c ∈ t.calls, c.state.InStep R
  idle : ∀ t ∈ R.runSession .start qs,
    t.state.stack = [] ∧ ∀ r, t.state.memo.find? r ≠ some .undecided
  declared : ∀ t ∈ R.runSession .start qs, ∀ r ∈ t.state.memo.keys,
    ∃ v, R.declaredVariable? r = some v
  cycles : ∀ t ∈ R.runSession .start qs, ∀ c ∈ t.reply.causes, R.Real c

/-- Whatever is asked in whatever order, verdicts and stack are kept in step, and the cycles that
are reported are there. -/
theorem booksKept (R : Registry) (qs : List Query) : R.BooksKept qs := by
  obtain ⟨settled, replies⟩ := runSession_settled (ResolverState.inStep_start R) rfl qs
  have working : R.Working .start := ⟨Memo.faithful_empty R, ResolverState.inStep_start R⟩
  constructor
  case replies => exact replies
  case calls => exact fun t ht => (settled t ht).calls
  case idle =>
    intro t ht
    obtain ⟨stack, inStep, -⟩ := settled t ht
    refine ⟨stack, fun r undecided => ?_⟩
    have hr := (inStep.undecided r).mp undecided
    rw [stack] at hr
    cases hr
  case declared => exact fun t ht => (settled t ht).inStep.declared
  case cycles =>
    intro t ht
    have reply : t.reply ∈ R.askAll .empty qs := replies ▸ List.mem_map_of_mem ht
    exact askAll_honest working qs t.reply reply

end Registry

end MetaAttack
