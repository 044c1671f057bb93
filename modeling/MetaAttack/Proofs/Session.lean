import Mathlib.Data.List.Forall2
import MetaAttack.Proofs.Resolving

/-!
# Sessions

A resolver is asked one question after another and remembers the variables between them. No answer
depends on what came before.
-/

namespace MetaAttack

/-- A question to a resolver. -/
inductive Query
  /-- The type of an expression in the context of an asset. -/
  | type (context : String) (e : Expr)
  /-- The attack step that an expression ends in. -/
  | step (context : String) (e : Expr)
  /-- The type of the variable that an asset itself declares. -/
  | binding (asset : String) (name : Ident)

/-- What is answered to a query. -/
inductive Reply
  | type (result : Resolution String)
  | step (result : Resolution StepRef)

/-- The call that a question makes of a resolver in the state `s`. -/
def Query.task (s : ResolverState) : Query → Task
  | .type C e => .type s C e
  | .step C e => .step s C e
  | .binding asset name => .binding s ⟨asset, name.name⟩ name.span

@[simp] theorem Query.state_task (s : ResolverState) (q : Query) : (q.task s).state = s := by
  cases q <;> rfl

/-- The reply that a result of the call is. -/
def Task.reply : (q : Task) → Resolution q.Target → Reply
  | .binding _ _ _, x | .type _ _ _, x => .type x
  | .step _ _ _, x => .step x

namespace Registry

/-- The reply to a question asked when `m` was known, with what is known then. -/
def ask (R : Registry) (m : Memo) (q : Query) : Reply × Memo :=
  let x := R.resolve (q.task (.idle m))
  ((q.task (.idle m)).reply x.result, x.state.memo)

/-- The replies to questions asked in order. -/
def askAll (R : Registry) (m : Memo) : List Query → List Reply
  | [] => []
  | q :: qs => (R.ask m q).1 :: R.askAll (R.ask m q).2 qs

/-- The reply says what the typing relation says. -/
def Answered (R : Registry) : Query → Reply → Prop
  | .type C e, .type x => x.Exact (R.schema.HasType C e)
  | .step C e, .step x => x.Exact (R.schema.LeadsTo C e)
  | .binding asset name, .type x => x.Exact (R.schema.BindingType asset name.name)
  | _, _ => False

variable {R : Registry} {m : Memo}

theorem ask_answered (faithful : m.Faithful R []) (q : Query) :
    R.Answered q (R.ask m q).1 ∧ (R.ask m q).2.Faithful R [] := by
  have faithful' : (q.task (.idle m)).known.Faithful R [] := by
    rw [Task.known, Query.state_task]
    exact faithful
  have idle : (q.task (.idle m)).state.stack = [] := by
    rw [Query.state_task]
    rfl
  obtain ⟨exact, kept⟩ := resolve_exact_of_idle idle faithful'
  refine ⟨?_, kept⟩
  cases q with
  | type C e => exact exact
  | step C e => exact exact
  | binding asset name => exact exact

/-- By induction on the queries, each of which leaves a faithful memory. -/
theorem askAll_answered (faithful : m.Faithful R []) (qs : List Query) :
    List.Forall₂ R.Answered qs (R.askAll m qs) := by
  induction qs generalizing m with
  | nil => exact .nil
  | cons q qs ih =>
      obtain ⟨answered, faithful'⟩ := ask_answered faithful q
      exact .cons answered (ih faithful')

/-- A resolver that starts without knowledge answers every question of a session as the typing
relation does. -/
theorem session_answered (R : Registry) (qs : List Query) :
    List.Forall₂ R.Answered qs (R.askAll .empty qs) :=
  askAll_answered (Memo.faithful_empty R) qs

end Registry

end MetaAttack
