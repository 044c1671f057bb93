import MetaAttack.Proofs.Events

/-!
# Resolving ends

The resolver's functions call each other, and a call of a variable goes on with an expression of any
size. Nothing in the text of the work on a task says that what it waits for is over some time. It
is, on every registry, because of a measure that each call lowers: the number of declared variables
that are not known, and for the same number the size of the expression.

## Implementation notes

How a task ends and what it calls for are relations on the work with its calls left open, so no call
is left out of the measure that the ending depends on. A walk from an asset to its ancestors is a
single step here. It ends on loops of extensions by itself, since it passes each asset once.
-/

namespace MetaAttack

open Relation

namespace Registry

variable {R : Registry} {s s' : ResolverState} {r : VariableRef} {span span' : Span} {q q' : Task}

/-! ### What is counted -/

/-- The variables to be counted are those declared. -/
theorem mem_variableRefs_iff : r ∈ R.variableRefs ↔ ∃ v, R.declaredVariable? r = some v := by
  constructor
  · simp only [variableRefs, List.mem_flatMap, List.mem_map]
    rintro ⟨a, ha, v, hv, rfl⟩
    have owner : R.asset? a.name = some a := Table.find?_key_of_mem ha
    have entry : a.bindings.find? v.name = some v := Table.find?_key_of_mem hv
    exact ⟨v, by simp [declaredVariable?, owner, entry]⟩
  · rintro ⟨v, hv⟩
    exact mem_variableRefs_of_declared hv

/-- No variable is counted twice. -/
theorem nodup_variableRefs (R : Registry) : R.variableRefs.Nodup := by
  apply List.nodup_flatMap.mpr
  constructor
  · intro a _
    have names : (a.bindings.entries.map Keyed.key).Nodup := a.bindings.nodup
    apply List.Nodup.of_map VariableRef.name
    rwa [List.map_map]
  · have names := List.pairwise_map.mp R.assets.nodup
    apply names.imp
    intro a b apart r ha hb
    obtain ⟨_, -, rfl⟩ := List.mem_map.mp ha
    obtain ⟨_, -, same⟩ := List.mem_map.mp hb
    exact apart (congrArg VariableRef.asset same).symm

/-! ### Calls -/

/-- A variable calls for its body, and only if it is declared and not known. -/
theorem callee_binding (h : R.Calls (.binding s r span) q) :
    r ∉ s.memo.keys ∧
      ∃ v, R.declaredVariable? r = some v ∧ q = .type (s.enter r) r.asset v.expr :=
  h.callee

/-- No call forgets a variable. -/
theorem keys_of_calls (h : R.Calls q q') : q.known.keys ⊆ q'.known.keys := by
  have callee := h.callee
  cases q with
  | binding s r span =>
      obtain ⟨-, v, -, rfl⟩ := callee
      exact s.keys_enter r
  | type s C e | step s C e => exact callee.1

theorem keys_of_calls_trans (h : ReflTransGen R.Calls q q') : q.known.keys ⊆ q'.known.keys := by
  induction h with
  | refl => exact List.Subset.refl _
  | tail _ call ih => exact List.Subset.trans ih (keys_of_calls call)

/-- The measure falls on every call, so no chain of calls goes on forever. -/
theorem calls_wellFounded (R : Registry) : WellFounded fun q' q => R.Calls q q' :=
  Subrelation.wf Calls.measure_lt
    (InvImage.wf (Task.measure R) (Prod.lex Nat.lt_wfRel Nat.lt_wfRel).wf)

/-- A variable that was entered is known, so its body is not called for again. -/
theorem not_calls_within (h : R.Calls (.binding s r span) q)
    (within : ReflTransGen R.Calls q (.binding s' r span')) :
    ¬ R.Calls (.binding s' r span') q' := by
  obtain ⟨-, v, -, rfl⟩ := callee_binding h
  intro again
  have unknown := (callee_binding again).1
  exact unknown (keys_of_calls_trans within (s.mem_keys_enter r))

/-- The resolver ends on the registry, whatever it is called for and whatever is known then. -/
structure Terminates (R : Registry) : Prop where
  /-- Each task ends in one way and in no other, namely in the resolver's run. -/
  total : ∀ q, ∃! x, R.Finishes q x
  answers : ∀ q, R.Finishes q (R.resolve q)
  /-- The first part of the measure counts the declared variables that are not known, each once. -/
  counted : (∀ r, r ∈ R.variableRefs ↔ ∃ v, R.declaredVariable? r = some v) ∧
    R.variableRefs.Nodup
  /-- The body of a variable is worked out only where the variable is declared and not known, and
  from then on it is known. -/
  body : ∀ {s r span q}, R.Calls (.binding s r span) q →
    r ∈ R.variableRefs ∧ r ∉ s.memo.keys ∧ q.known.keys = s.memo.keys ++ [r]
  /-- Nothing that is known is forgotten in a call. -/
  kept : ∀ {q q'}, R.Calls q q' → q.known.keys ⊆ q'.known.keys
  /-- Nor when it returns. -/
  returned : ∀ {q x}, R.Finishes q x → q.known.keys ⊆ x.state.memo.keys
  /-- While the body of a variable is worked out, it is not entered again. -/
  once : ∀ {s r span q s' span' q'}, R.Calls (.binding s r span) q →
    ReflTransGen R.Calls q (.binding s' r span') → ¬ R.Calls (.binding s' r span') q'
  decreases : ∀ {q q'}, R.Calls q q' →
    Prod.Lex (· < ·) (· < ·) (q'.measure R) (q.measure R)
  /-- No chain of calls goes on forever. -/
  wellFounded : WellFounded fun q' q => R.Calls q q'

/-- The measure, the memory and the end of all chains together. -/
theorem terminates (R : Registry) : R.Terminates where
  total := fun q => ⟨R.resolve q, finishes_resolve R q, fun _ => finishes_iff.mp⟩
  answers := finishes_resolve R
  counted := ⟨fun _ => mem_variableRefs_iff, nodup_variableRefs R⟩
  body := by
    intro s r span q h
    obtain ⟨unknown, v, hv, rfl⟩ := callee_binding h
    exact ⟨mem_variableRefs_of_declared hv, unknown, Memo.keys_record_of_not_mem unknown⟩
  kept := keys_of_calls
  returned := fun h => h.grown.keys
  once := not_calls_within
  decreases := Calls.measure_lt
  wellFounded := calls_wellFounded R

end Registry

end MetaAttack
