import Mathlib.Logic.Relation
import MetaAttack.Spec.Expr

/-!
# Schemas

A schema is what the rules of the language read of a specification: the declared assets, what
each of them extends, and the fields, variables and attack steps that each declares itself. It is a
set of facts without any order, so it says nothing of how a name is looked up. Nothing is assumed
of it: parents may be missing and assets may extend each other in a loop.
-/

namespace MetaAttack

open Relation

/-- The facts that a specification declares. -/
@[ext] structure Schema where
  asset : String → Prop
  /-- The asset names the other one as its parent, which need not be declared. -/
  parent : String → String → Prop
  /-- The asset itself has a field of this name that leads to the third asset. -/
  field : String → String → String → Prop
  /-- The asset itself declares a variable of this name for the expression. -/
  binding : String → String → Expr → Prop
  step : String → String → Prop

namespace Schema

/-- Only declared assets have a parent, and what names one thing names no other. -/
structure Coherent (S : Schema) : Prop where
  known : ∀ {n p}, S.parent n p → S.asset n
  parent : ∀ {n p q}, S.parent n p → S.parent n q → p = q
  field : ∀ {n x t u}, S.field n x t → S.field n x u → t = u
  binding : ∀ {n x e d}, S.binding n x e → S.binding n x d → e = d

/-- The asset extends the other one, which is declared. -/
def Extends (S : Schema) (n p : String) : Prop := S.parent n p ∧ S.asset p

/-- The first asset is the second one or extends it over any number of parents. -/
def Descends (S : Schema) : String → String → Prop := ReflTransGen S.Extends

/-- The second asset is a strict ancestor of the first. -/
def Inherits (S : Schema) : String → String → Prop := TransGen S.Extends

/-- The chain of the asset ends in a declared asset without a parent. -/
inductive Rooted (S : Schema) : String → Prop
  | root {n} (known : S.asset n) (top : ∀ p, ¬ S.parent n p) : Rooted S n
  | child {n p} (known : S.asset n) (parent : S.parent n p) (rest : Rooted S p) : Rooted S n

/-- The second asset is, of the first one and its ancestors, the nearest with the property. -/
inductive Nearest (S : Schema) (P : String → Prop) : String → String → Prop
  | here {n} (known : S.asset n) (holds : P n) : Nearest S P n n
  | above {n p m} (parent : S.parent n p) (fails : ¬ P n) (rest : Nearest S P p m) :
      Nearest S P n m

variable {S : Schema} {P Q : String → Prop} {a b c n m : String}

namespace Nearest

theorem asset (h : S.Nearest P n m) : S.asset m := by
  induction h with
  | here known _ => exact known
  | above _ _ _ ih => exact ih

theorem holds (h : S.Nearest P n m) : P m := by
  induction h with
  | here _ holds => exact holds
  | above _ _ _ ih => exact ih

theorem start_asset (hS : S.Coherent) (h : S.Nearest P n m) : S.asset n := by
  cases h with
  | here known _ => exact known
  | above parent _ _ => exact hS.known parent

theorem descends (hS : S.Coherent) (h : S.Nearest P n m) : S.Descends n m := by
  induction h with
  | here _ _ => exact .refl
  | above parent _ rest ih => exact .head ⟨parent, rest.start_asset hS⟩ ih

theorem unique (hS : S.Coherent) (h : S.Nearest P n m) {m' : String}
    (h' : S.Nearest P n m') : m = m' := by
  induction h with
  | here _ holds =>
      cases h' with
      | here _ _ => rfl
      | above _ fails _ => exact absurd holds fails
  | above parent fails _ ih =>
      cases h' with
      | here _ holds => exact absurd holds fails
      | above parent' _ rest' => exact ih (hS.parent parent parent' ▸ rest')

theorem congr (hS : S.Coherent) (hPQ : ∀ n, S.asset n → (P n ↔ Q n)) :
    S.Nearest P n m ↔ S.Nearest Q n m := by
  constructor
  · intro h
    induction h with
    | here known holds => exact .here known ((hPQ _ known).mp holds)
    | above parent fails _ ih =>
        exact .above parent (fun hq => fails ((hPQ _ (hS.known parent)).mpr hq)) ih
  · intro h
    induction h with
    | here known holds => exact .here known ((hPQ _ known).mpr holds)
    | above parent fails _ ih =>
        exact .above parent (fun hp => fails ((hPQ _ (hS.known parent)).mp hp)) ih

theorem iff_of_holds (known : S.asset n) (holds : P n) : S.Nearest P n m ↔ n = m := by
  constructor
  · intro h
    cases h with
    | here _ _ => rfl
    | above _ fails _ => exact absurd holds fails
  · rintro rfl
    exact .here known holds

theorem iff_of_fails (hS : S.Coherent) {p : String} (edge : S.parent n p) (fails : ¬ P n) :
    S.Nearest P n m ↔ S.Nearest P p m := by
  constructor
  · intro h
    cases h with
    | here _ holds => exact absurd holds fails
    | above edge' _ rest => exact hS.parent edge edge' ▸ rest
  · exact .above edge fails

theorem not_of_top (top : ∀ p, ¬ S.parent n p) (fails : ¬ P n) : ¬ S.Nearest P n m := by
  intro h
  cases h with
  | here _ holds => exact fails holds
  | above edge _ _ => exact top _ edge

end Nearest

theorem Descends.asset (h : S.Descends n m) (hn : S.asset n) : S.asset m := by
  rcases ReflTransGen.cases_tail h with rfl | ⟨_, _, edge⟩
  · exact hn
  · exact edge.2

theorem Inherits.asset (hS : S.Coherent) (h : S.Inherits n m) : S.asset n := by
  obtain ⟨p, edge, _⟩ := TransGen.head'_iff.mp h
  exact hS.known edge.1

/-- What an asset inherits from is what its parent descends from. -/
theorem inherits_iff_of_parent (hS : S.Coherent) {p : String} (edge : S.parent n p) :
    S.Inherits n m ↔ S.Descends p m ∧ S.asset m := by
  constructor
  · intro h
    obtain ⟨q, first, path⟩ := TransGen.head'_iff.mp h
    obtain rfl := hS.parent edge first.1
    exact ⟨path, Descends.asset path first.2⟩
  · rintro ⟨path, known⟩
    rcases ReflTransGen.cases_head path with rfl | ⟨q, step, _⟩
    · exact .single ⟨edge, known⟩
    · exact .head' ⟨edge, hS.known step.1⟩ path

theorem not_inherits_of_top (top : ∀ p, ¬ S.parent n p) : ¬ S.Inherits n m := by
  intro h
  obtain ⟨p, edge, _⟩ := TransGen.head'_iff.mp h
  exact top p edge.1

theorem Descends.eq_or_inherits (h : S.Descends n m) : n = m ∨ S.Inherits n m :=
  (reflTransGen_iff_eq_or_transGen.mp h).imp_left Eq.symm

/-- Of two assets that a third one descends from, one descends from the other. -/
theorem Descends.total (hS : S.Coherent) (h : S.Descends n a) (h' : S.Descends n b) :
    S.Descends a b ∨ S.Descends b a :=
  ReflTransGen.total_of_right_unique (fun _ _ _ edge edge' => hS.parent edge.1 edge'.1) h h'

/-- A property that some asset on the chain has is met first at one of them. -/
theorem Descends.exists_nearest (hS : S.Coherent) (h : S.Descends n m) (hm : S.asset m)
    (holds : P m) : ∃ c, S.Nearest P n c := by
  classical
  induction h using ReflTransGen.head_induction_on with
  | refl => exact ⟨m, .here hm holds⟩
  | @head n p edge _ ih =>
      by_cases hn : P n
      · exact ⟨n, .here (hS.known edge.1) hn⟩
      · obtain ⟨c, hc⟩ := ih
        exact ⟨c, .above edge.1 hn hc⟩

theorem Rooted.asset (h : S.Rooted n) : S.asset n := by
  cases h with
  | root known _ => exact known
  | child known _ _ => exact known

/-- No asset whose chain has a root extends itself. -/
theorem Rooted.not_inherits (hS : S.Coherent) (h : S.Rooted n) : ¬ S.Inherits n n := by
  induction h with
  | root _ top =>
      intro loop
      obtain ⟨p, edge, _⟩ := TransGen.head'_iff.mp loop
      exact top p edge.1
  | @child n p _ parent _ ih =>
      intro loop
      obtain ⟨q, edge, path⟩ := TransGen.head'_iff.mp loop
      obtain rfl := hS.parent parent edge.1
      exact ih (TransGen.tail' path edge)

/-- On a loop, whoever is reached leads back. -/
theorem Inherits.back (hS : S.Coherent) (loop : S.Inherits a a) (h : S.Descends a b) :
    S.Descends b a := by
  induction h with
  | refl => exact .refl
  | @tail b c _ edge ih =>
      rcases ReflTransGen.cases_head ih with rfl | ⟨d, edge', path⟩
      · obtain ⟨d, edge', path⟩ := TransGen.head'_iff.mp loop
        exact hS.parent edge.1 edge'.1 ▸ path
      · exact hS.parent edge.1 edge'.1 ▸ path

end Schema

end MetaAttack
