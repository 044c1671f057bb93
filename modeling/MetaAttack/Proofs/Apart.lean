import MetaAttack.Analysis.Analyzer
import MetaAttack.Proofs.Entities
import MetaAttack.Proofs.Fields
import MetaAttack.Proofs.Progress

/-!
# Errors apart from clauses

That an expression of a clause does not resolve is reported by resolving alone. None of the earlier
checks reports anything of the kind.
-/

namespace MetaAttack

/-- All errors have the property. -/
def Only (P : SemanticError → Prop) (es : List SemanticError) : Prop := ∀ e ∈ es, P e

section Only

variable {P Q : SemanticError → Prop} {e : SemanticError} {es fs : List SemanticError} {α : Type}

theorem only_nil : Only P [] := fun _ h => absurd h List.not_mem_nil

theorem Only.append (h : Only P es) (h' : Only P fs) : Only P (es ++ fs) :=
  List.forall_mem_append.mpr ⟨h, h'⟩

theorem only_singleton (h : P e) : Only P [e] := List.forall_mem_singleton.mpr h

theorem only_map {f : α → SemanticError} {xs : List α} (h : ∀ x ∈ xs, P (f x)) :
    Only P (xs.map f) := by
  intro e he
  obtain ⟨x, mem, rfl⟩ := List.mem_map.mp he
  exact h x mem

/-- A check that goes through entries reports what it reports for each of them. -/
theorem only_flatMap {f : α → List SemanticError} {xs : List α} (h : ∀ x ∈ xs, Only P (f x)) :
    Only P (xs.flatMap f) := by
  intro e he
  obtain ⟨x, mem, hx⟩ := List.mem_flatMap.mp he
  exact h x mem e hx

/-- The same where a check reports at most one error for an entry. -/
theorem only_filterMap {f : α → Option SemanticError} {xs : List α}
    (h : ∀ x ∈ xs, ∀ e, f x = some e → P e) : Only P (xs.filterMap f) := by
  intro e he
  obtain ⟨x, mem, hx⟩ := List.mem_filterMap.mp he
  exact h x mem e hx

theorem Only.mono (h : Only P es) (hPQ : ∀ e, P e → Q e) : Only Q es := fun e he => hPQ e (h e he)

end Only

/-- The errors are not about expressions of clauses. -/
abbrev Apart (es : List SemanticError) : Prop := Only (·.unresolvedAt? = none) es

/-- Errors that are apart blame no expression. -/
theorem Apart.filterMap_eq_nil {es : List SemanticError} (h : Apart es) :
    es.filterMap SemanticError.unresolvedAt? = [] := List.filterMap_eq_nil_iff.mpr h

/-! ### While entering -/

namespace Draft

theorem apart_addStep {d : Draft} (h : Apart d.errors) (s : AttackStep) :
    Apart (d.addStep s).errors := by
  rw [addStep]
  split
  · exact h.append (only_singleton rfl)
  · exact h

theorem apart_addVariable {d : Draft} (h : Apart d.errors) (v : Variable) :
    Apart (d.addVariable v).errors := by
  rw [addVariable]
  split
  · exact h.append (only_singleton rfl)
  · exact h

theorem apart_ofAsset (category : String) (a : Asset) : Apart (ofAsset category a).errors := by
  apply List.foldlRecOn (motive := fun d => Apart (Draft.errors d))
  · apply List.foldlRecOn (motive := fun d => Apart (Draft.errors d))
    · exact only_nil
    · exact fun d h s _ => apart_addStep h s
  · exact fun d h v _ => apart_addVariable h v

end Draft

namespace Declared

/-- Declaring reports repetitions only. -/
theorem apart_enter {s : Declared} (h : Apart s.errors) (e : Entity) :
    Apart (s.enter e).errors := by
  cases e with
  | define d =>
      rw [enter, define]
      split
      · exact h.append (only_singleton rfl)
      · exact h
  | category name remarks span => exact h
  | asset c a =>
      rw [enter, asset]
      split
      · exact h.append (only_singleton rfl)
      · exact h.append (Draft.apart_ofAsset c a)
  | association a => exact h

/-- Whatever was declared, no error of it is about an expression. -/
theorem apart_of (es : List Entity) : Apart (of es).errors := by
  apply List.foldlRecOn (motive := fun s => Apart (Declared.errors s))
  · exact only_nil
  · exact fun s h e _ => apart_enter h e

end Declared

/-! ### While checking -/

namespace Registry

variable (R : Registry)

theorem apart_requiredDefineErrors : Apart R.requiredDefineErrors := by
  have each : ∀ key, Apart (R.defineErrors key) := by
    intro key
    rw [defineErrors]
    split
    · exact only_singleton rfl
    · split
      · exact only_singleton rfl
      · split
        · exact only_singleton rfl
        · exact only_nil
  exact (each "id").append (each "version")

theorem apart_extensionErrors : Apart R.extensionErrors := by
  refine Only.append (only_filterMap fun a _ e he => ?_) ?_
  · cases hp : a.parent with
    | none => simp [hp] at he
    | some p =>
        rw [hp, Option.bind_some] at he
        split at he
        · cases he
        · cases he
          rfl
  · apply only_map
    exact fun _ _ => rfl

/-- A field can be refused for a repetition or for what it shadows, and not for an expression. -/
theorem apart_placeField (f : OwnedField) : Apart (R.placeField f).2 := by
  rw [placeField]
  split
  · exact only_nil
  · split
    · exact only_singleton rfl
    · split
      · exact only_singleton rfl
      · exact only_nil

theorem apart_placeFields (fs : List OwnedField) : Apart (R.placeFields fs).2 := by
  induction fs generalizing R with
  | nil => exact only_nil
  | cons f fs ih => exact (apart_placeField R f).append (ih (R.placeField f).1)

/-- An end that is not declared is no expression either. -/
theorem apart_placeAssociations (as : List AssociationEntry) :
    Apart (R.placeAssociations as).2 := by
  induction as generalizing R with
  | nil => exact only_nil
  | cons a as ih =>
      have ends : Apart (a.undefinedEnds R) := by
        refine only_filterMap fun i _ e he => ?_
        split at he
        · cases he
        · cases he
          rfl
      by_cases h : a.undefinedEnds R = []
      · rw [placeAssociations_cons_of_declared h]
        exact (apart_placeFields R a.ends).append (ih (R.widen a.ends))
      · rw [placeAssociations_cons_of_undeclared h]
        exact ends.append (ih R)

theorem apart_inheritedFieldErrors : Apart R.inheritedFieldErrors := by
  refine only_flatMap fun a _ => only_filterMap fun f _ e he => ?_
  obtain ⟨prior, _, rfl⟩ := Option.map_eq_some_iff.mp he
  rfl

/-- A variable is refused for hiding another one before its expression is looked at. -/
theorem apart_inheritedVariableErrors : Apart R.inheritedVariableErrors := by
  refine only_flatMap fun a _ => only_filterMap fun f _ e he => ?_
  obtain ⟨prior, _, rfl⟩ := Option.map_eq_some_iff.mp he
  rfl

theorem apart_remarkErrors : Apart R.remarkErrors := by
  have each : ∀ earlier rs, Apart (repeatedRemarks earlier rs) := by
    intro earlier rs
    induction rs generalizing earlier with
    | nil => exact only_nil
    | cons r rs ih =>
        rw [repeatedRemarks]
        split
        · exact List.forall_mem_cons.mpr ⟨rfl, ih _⟩
        · exact ih _
  exact only_flatMap fun b _ => each [] b.entries

end Registry

/-! ### Errors of a step by itself -/

/-- The error is about a step by itself: about its clauses, its classification or its time. -/
def SemanticError.OfStep : SemanticError → Prop
  | .missingRequires .. | .existenceWithTtc .. | .requiresOnNonExistence ..
  | .classificationNotAllowed .. | .unsupportedDistribution .. | .distributionArity ..
  | .distributionRange .. | .restrictedOperand .. | .logicalOperand .. | .logicalTtcOnAttack ..
  | .invalidDefenseTtc .. => True
  | _ => False

theorem SemanticError.OfStep.unresolvedAt? {e : SemanticError} (h : e.OfStep) :
    e.unresolvedAt? = none := by
  cases e with
  | unresolved causes clause span => exact h.elim
  | _ => rfl

namespace Ttc

/-- What is wrong with a time is reported for the step that has it. -/
theorem only_errors (t : Ttc) (restricted operand : Bool) :
    Only SemanticError.OfStep (t.errors restricted operand) := by
  induction t generalizing restricted operand with
  | number _ _ => exact only_nil
  | distribution n ps s =>
      have leaf : Only SemanticError.OfStep (leafErrors n.name ps s) := by
        rw [leafErrors]
        split
        · exact only_singleton trivial
        · split
          · exact only_singleton trivial
          · split
            · split
              · exact only_nil
              · exact only_singleton trivial
            · exact only_nil
      have place : Only SemanticError.OfStep (placeErrors restricted operand n.name s) := by
        rw [placeErrors]
        split
        · exact only_nil
        · apply Only.append
          · split
            · exact only_singleton trivial
            · exact only_nil
          · split
            · exact only_singleton trivial
            · exact only_nil
      exact leaf.append place
  | binary op l r s ihl ihr => exact (ihl _ _).append (ihr _ _)

end Ttc

namespace StepEntry

variable (s : StepEntry) (asset : String)

/-- A step is judged against those that it overrides without resolving anything. -/
theorem apart_overrideErrors (above : List AssetEntry) : Apart (s.overrideErrors above) := by
  rw [overrideErrors]
  split
  · split
    · exact only_singleton rfl
    · exact only_nil
  · split
    · exact only_singleton rfl
    · exact only_nil

/-- An existence step is to blame for its errors, a missing expression included. -/
theorem only_existenceErrors : Only SemanticError.OfStep s.existenceErrors := by
  rw [existenceErrors]
  split
  · apply Only.append
    · split
      · exact only_singleton trivial
      · exact only_nil
    · cases s.ttc with
      | none => exact only_nil
      | some t => exact only_singleton trivial
  · cases s.requires with
    | none => exact only_nil
    | some r => exact only_singleton trivial

theorem only_classificationErrors :
    Only SemanticError.OfStep (s.classificationErrors asset) := by
  rw [classificationErrors]
  split
  · exact only_nil
  · split
    · exact only_singleton trivial
    · exact only_nil

theorem only_ttcErrors : Only SemanticError.OfStep (s.ttcErrors asset) := by
  rw [ttcErrors]
  cases s.ttc with
  | none => exact only_nil
  | some t =>
      cases s.kind with
      | existence | absence => exact only_nil
      | defense =>
          dsimp only
          split
          · exact t.only_errors false false
          · exact only_singleton trivial
      | allOf | anyOf =>
          refine Only.append ?_ (t.only_errors false false)
          split
          · exact only_singleton trivial
          · exact only_nil

/-- What is wrong with a step by itself is no expression of a clause. -/
theorem only_ownErrors :
    Only SemanticError.OfStep
      (s.existenceErrors ++ s.classificationErrors asset ++ s.ttcErrors asset) :=
  (s.only_existenceErrors.append (s.only_classificationErrors asset)).append
    (s.only_ttcErrors asset)

end StepEntry

namespace Registry

variable (R : Registry)

/-- All checks of steps together, the own ones and those against inherited steps. -/
theorem apart_stepErrors : Apart R.stepErrors := by
  refine only_flatMap fun a _ => only_flatMap fun s _ => ?_
  rw [List.append_assoc, List.append_assoc, ← List.append_assoc s.existenceErrors]
  refine Only.append ?_ ((s.only_ownErrors a.name).mono fun _ => SemanticError.OfStep.unresolvedAt?)
  split
  · exact s.apart_overrideErrors _
  · exact only_nil

end Registry

end MetaAttack
