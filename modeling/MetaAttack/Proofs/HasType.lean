import MetaAttack.Proofs.Schema
import MetaAttack.Registry.Entry

/-!
# The typing relation

An expression has a type in the context of an asset, by rules that mention neither an order of
evaluation nor any memory of earlier questions. A derivation is finite, so an expression whose
typing comes back to itself over variables has no type.

## Implementation notes

A question is an expression with its context. `Needs` holds between a question and every question
that a derivation for it must answer first. Typed questions are accessible for it, which is how
cycles are excluded below and in the account of the resolver.
-/

namespace MetaAttack

open Relation

namespace Schema

/-- The expression has the type in the context of the asset named first. -/
inductive HasType (S : Schema) : String → Expr → String → Prop
  | field {C D T name span} (near : S.Nearest (fun a => ∃ t, S.field a name.name t) C D)
      (target : S.field D name.name T) : HasType S C (.field name span) T
  /-- The body of a variable is typed where the variable is declared. -/
  | call {C D T e name span} (near : S.Nearest (fun a => ∃ e, S.binding a name.name e) C D)
      (body : S.binding D name.name e) (typed : HasType S D e T) : HasType S C (.call name span) T
  | collect {C M T l r span} (left : HasType S C l M) (right : HasType S M r T) :
      HasType S C (.collect l r span) T
  /-- The first ancestor of the right operand's type that the left operand's type shares. -/
  | combine {C A B T op l r span} (left : HasType S C l A) (right : HasType S C r B)
      (shared : S.Nearest (S.Descends A) B T) : HasType S C (.combine op l r span) T
  | closure {C T e span} (inner : HasType S C e T) (below : S.Descends C T) :
      HasType S C (.closure e span) T
  | restrict {C B e name span} (inner : HasType S C e B) (known : S.asset name.name)
      (below : S.Descends name.name B) : HasType S C (.restrict e name span) name.name

/-- In the context of the asset named first, the expression is a chain that ends in the attack
step. -/
inductive LeadsTo (S : Schema) : String → Expr → StepRef → Prop
  | step {C D name span} (above : S.Descends C D) (declared : S.step D name.name) :
      LeadsTo S C (.field name span) ⟨C, name.name⟩
  | collect {C M ref l r span} (left : HasType S C l M) (right : LeadsTo S M r ref) :
      LeadsTo S C (.collect l r span) ref

/-- The asset itself declares the variable, and the body has the type there. -/
def BindingType (S : Schema) (asset name T : String) : Prop :=
  ∃ e, S.binding asset name e ∧ S.HasType asset e T

/-- Typing the first question takes typing the second one. -/
inductive Needs (S : Schema) : String × Expr → String × Expr → Prop
  | call {C D e name span} (near : S.Nearest (fun a => ∃ e, S.binding a name.name e) C D)
      (body : S.binding D name.name e) : Needs S (C, .call name span) (D, e)
  | collectLeft {C l r span} : Needs S (C, .collect l r span) (C, l)
  | collectRight {C M l r span} (left : S.HasType C l M) :
      Needs S (C, .collect l r span) (M, r)
  | combineLeft {C op l r span} : Needs S (C, .combine op l r span) (C, l)
  | combineRight {C op l r span} : Needs S (C, .combine op l r span) (C, r)
  | closure {C e span} : Needs S (C, .closure e span) (C, e)
  | restrict {C e name span} : Needs S (C, .restrict e name span) (C, e)

variable {S : Schema} {C D T U : String} {e : Expr} {q q' : String × Expr}

/-- No expression has two types, as no name has two meanings. -/
theorem HasType.unique (hS : S.Coherent) (h : S.HasType C e T) (h' : S.HasType C e U) :
    T = U := by
  induction h generalizing U with
  | field near target =>
      cases h' with
      | field near' target' =>
          obtain rfl := near.unique hS near'
          exact hS.field target target'
  | call near body _ ih =>
      cases h' with
      | call near' body' typed' =>
          obtain rfl := near.unique hS near'
          exact ih (hS.binding body body' ▸ typed')
  | collect _ _ ihl ihr =>
      cases h' with
      | collect left' right' => exact ihr (ihl left' ▸ right')
  | combine _ _ shared ihl ihr =>
      cases h' with
      | combine left' right' shared' =>
          obtain rfl := ihl left'
          obtain rfl := ihr right'
          exact shared.unique hS shared'
  | closure _ _ ih =>
      cases h' with
      | closure inner' _ => exact ih inner'
  | restrict _ _ _ _ =>
      cases h' with
      | restrict _ _ _ => rfl

/-- Nor does an expression lead to two steps. -/
theorem LeadsTo.unique (hS : S.Coherent) {r r' : StepRef} (h : S.LeadsTo C e r)
    (h' : S.LeadsTo C e r') : r = r' := by
  induction h generalizing r' with
  | step _ _ =>
      cases h' with
      | step _ _ => rfl
  | collect left _ ih =>
      cases h' with
      | collect left' right' => exact ih (left.unique hS left' ▸ right')

/-- Only a declared asset is a context in which anything has a type. -/
theorem HasType.context (hS : S.Coherent) (h : S.HasType C e T) : S.asset C := by
  induction h with
  | field near _ | call near _ _ _ => exact near.start_asset hS
  | collect _ _ ih _ | combine _ _ _ ih _ | closure _ _ ih | restrict _ _ _ ih => exact ih

/-- If fields lead to declared assets, then so does every expression. -/
theorem HasType.asset (hf : ∀ {n x t}, S.field n x t → S.asset t) (h : S.HasType C e T) :
    S.asset T := by
  induction h with
  | field _ target => exact hf target
  | call _ _ _ ih => exact ih
  | collect _ _ _ ih => exact ih
  | combine _ _ shared _ _ => exact shared.asset
  | closure _ _ ih => exact ih
  | restrict _ known _ _ => exact known

/-- An attack step that an expression leads to is found on an asset that the expression reaches. -/
theorem LeadsTo.declared {r : StepRef} (hf : ∀ {n x t}, S.field n x t → S.asset t)
    (hC : S.asset C) (h : S.LeadsTo C e r) :
    S.asset r.asset ∧ ∃ D, S.Descends r.asset D ∧ S.step D r.step := by
  induction h with
  | step above declared => exact ⟨hC, _, above, declared⟩
  | collect left _ ih => exact ih (left.asset hf)

/-- What a typed question needs, it needs over finitely many steps. -/
theorem HasType.acc (hS : S.Coherent) (h : S.HasType C e T) :
    Acc (fun q q' => S.Needs q' q) (C, e) := by
  induction h with
  | field _ _ => exact .intro _ fun _ hq => by cases hq
  | call near body _ ih =>
      apply Acc.intro
      intro _ hq
      cases hq with
      | call near' body' =>
          obtain rfl := near.unique hS near'
          exact hS.binding body body' ▸ ih
  | collect left _ ihl ihr =>
      apply Acc.intro
      intro _ hq
      cases hq with
      | collectLeft => exact ihl
      | collectRight left' => exact left.unique hS left' ▸ ihr
  | combine _ _ _ ihl ihr =>
      apply Acc.intro
      intro _ hq
      cases hq with
      | combineLeft => exact ihl
      | combineRight => exact ihr
  | closure _ _ ih =>
      apply Acc.intro
      intro _ hq
      cases hq with
      | closure => exact ih
  | restrict _ _ _ ih =>
      apply Acc.intro
      intro _ hq
      cases hq with
      | restrict => exact ih

/-- A question that needs its own answer has none. -/
theorem not_hasType_of_cycle (hS : S.Coherent) (h : TransGen S.Needs (C, e) (C, e)) :
    ¬ S.HasType C e T := by
  intro typed
  have acc := (typed.acc hS).transGen
  have loop : TransGen (fun q q' => S.Needs q' q) (C, e) (C, e) := transGen_swap.mpr h
  generalize (C, e) = q at acc loop
  induction acc with
  | intro q _ ih => exact ih q loop loop

end Schema

end MetaAttack
