import MetaAttack.Diagnostic.ResolveError
import MetaAttack.Registry.Ancestry

/-!
# What is known about variables

The type of a variable is worked out once. A memo keeps a verdict for every variable that has been
asked for, in the order in which the first questions came; a variable whose expression is still
being worked out is undecided. `Memo.pending` counts the declared variables without a verdict: it
never grows, and each expression of a variable that is entered lowers it.
-/

namespace MetaAttack

/-- A variable, named together with the asset that declares it. -/
structure VariableRef where
  asset : String
  name : String
deriving DecidableEq, Repr

/-- What is known about a variable that was asked for. -/
inductive Verdict
  | undecided
  | typed (target : String)
  | failed
deriving DecidableEq, Repr

/-- The verdicts so far, the oldest question first. -/
structure Memo where
  verdicts : List (VariableRef × Verdict)
deriving DecidableEq, Repr

namespace Registry

/-- All variables that are declared. -/
def variableRefs (R : Registry) : List VariableRef :=
  R.assets.entries.flatMap fun a => a.bindings.entries.map fun v => ⟨a.name, v.name⟩

/-- The declaration of a variable on the very asset that it is named with. -/
def declaredVariable? (R : Registry) (r : VariableRef) : Option VariableEntry := do
  let a ← R.asset? r.asset
  a.bindings.find? r.name

theorem mem_variableRefs_of_declared {R : Registry} {r : VariableRef} {v : VariableEntry}
    (h : R.declaredVariable? r = some v) : r ∈ R.variableRefs := by
  simp only [declaredVariable?, asset?, Option.bind_eq_bind, Option.bind_eq_some_iff] at h
  obtain ⟨a, ha, hv⟩ := h
  have hn : a.name = r.asset := Table.key_of_find? ha
  have hm : v.name = r.name := Table.key_of_find? hv
  simp only [variableRefs, List.mem_flatMap, List.mem_map]
  exact ⟨a, Table.mem_of_find? ha, v, Table.mem_of_find? hv, by rw [hn, hm]⟩

end Registry

namespace Memo

def empty : Memo := ⟨[]⟩

def keys (m : Memo) : List VariableRef := m.verdicts.map Prod.fst

def find? (m : Memo) (r : VariableRef) : Option Verdict :=
  (m.verdicts.find? fun p => p.1 = r).map Prod.snd

/-- Notes the verdict on a variable, in place of an earlier one. -/
def record (m : Memo) (r : VariableRef) (v : Verdict) : Memo :=
  if r ∈ m.keys then ⟨m.verdicts.map fun p => if p.1 = r then (r, v) else p⟩
  else ⟨m.verdicts ++ [(r, v)]⟩

/-- The variables that have a type, with it. -/
def typedVariables (m : Memo) : List (VariableRef × String) :=
  m.verdicts.filterMap fun p =>
    match p.2 with
    | .typed t => some (p.1, t)
    | .undecided | .failed => none

/-- The number of declared variables without a verdict. -/
def pending (R : Registry) (m : Memo) : Nat :=
  (R.variableRefs.filter fun r => r ∉ m.keys).length

theorem find?_eq_none {m : Memo} {r : VariableRef} : m.find? r = none ↔ r ∉ m.keys := by
  simp only [find?, keys, Option.map_eq_none_iff, List.find?_eq_none, List.mem_map]
  grind

theorem mem_keys_record {m : Memo} {r q : VariableRef} {v : Verdict} :
    q ∈ (m.record r v).keys ↔ q = r ∨ q ∈ m.keys := by
  unfold record
  split
  · next h =>
    have : (m.verdicts.map fun p => if p.1 = r then (r, v) else p).map Prod.fst = m.keys := by
      simp only [keys, List.map_map]
      refine List.map_congr_left fun p _ => ?_
      simp only [Function.comp]
      split <;> simp_all
    simp only [keys] at this ⊢
    rw [this]
    grind [keys]
  · simp [keys, or_comm]

theorem pending_le_of_keys_subset (R : Registry) {m m' : Memo} (h : m.keys ⊆ m'.keys) :
    m'.pending R ≤ m.pending R := by
  unfold pending
  rw [← List.countP_eq_length_filter, ← List.countP_eq_length_filter]
  refine List.countP_mono_left fun q _ hq => ?_
  simp only [decide_eq_true_eq] at hq ⊢
  exact fun known => hq (h known)

/-- The first verdict on a declared variable lowers the number of those that have none. -/
theorem pending_record_lt {R : Registry} {m : Memo} {r : VariableRef} (v : Verdict)
    (hr : r ∈ R.variableRefs) (hm : r ∉ m.keys) :
    (m.record r v).pending R < m.pending R := by
  have h : (R.variableRefs.filter fun q => q ∉ (m.record r v).keys) =
      (R.variableRefs.filter fun q => q ∉ m.keys).filter fun q => q ≠ r := by
    rw [List.filter_filter]
    refine List.filter_congr fun q _ => ?_
    simp [mem_keys_record]
  unfold pending
  rw [h]
  refine List.length_filter_lt_length_iff_exists.2 ⟨r, ?_, by simp⟩
  simp [hr, hm]

end Memo

end MetaAttack
