import Mathlib.Data.List.Induction
import MetaAttack.Proofs.Tables

/-!
# First entries

A list of declarations falls into those that bear a name first and those that repeat one. A table
that is filled from the list holds the former.
-/

namespace MetaAttack

variable {α β : Type}

section

variable (key : α → String)

/-- The entries that bear their name first, where some came `before`. -/
def firstsAfter (before : List α) : List α → List α
  | [] => []
  | a :: as =>
      match before.find? fun b => key b = key a with
      | some _ => firstsAfter (before ++ [a]) as
      | none => a :: firstsAfter (before ++ [a]) as

/-- The entries that repeat a name, each with the first entry of that name. -/
def repeatsAfter (before : List α) : List α → List (α × α)
  | [] => []
  | a :: as =>
      match before.find? fun b => key b = key a with
      | some first => (a, first) :: repeatsAfter (before ++ [a]) as
      | none => repeatsAfter (before ++ [a]) as

/-- The elements that are the first ones with their key. -/
def firsts (as : List α) : List α := firstsAfter key [] as

/-- The elements with a key that came before, each with the first one that has it. -/
def repeats (as : List α) : List (α × α) := repeatsAfter key [] as

end

variable {key : α → String} {a first : α} {as before : List α}

/-- The last entry is kept if none before it has its key. -/
theorem firstsAfter_concat (before as : List α) (a : α) :
    firstsAfter key before (as ++ [a]) =
      firstsAfter key before as ++
        match (before ++ as).find? fun b => key b = key a with
        | some _ => []
        | none => [a] := by
  induction as generalizing before with
  | nil =>
      simp only [List.nil_append, List.append_nil, firstsAfter]
  | cons b as ih =>
      rw [List.cons_append, firstsAfter, firstsAfter, ih, List.append_assoc, List.singleton_append]
      split <;> rfl

/-- An element with a key that came before is a repetition, of the first that had it. -/
theorem repeatsAfter_concat (before as : List α) (a : α) :
    repeatsAfter key before (as ++ [a]) =
      repeatsAfter key before as ++
        match (before ++ as).find? fun b => key b = key a with
        | some first => [(a, first)]
        | none => [] := by
  induction as generalizing before with
  | nil =>
      simp only [List.nil_append, List.append_nil, repeatsAfter]
  | cons b as ih =>
      rw [List.cons_append, repeatsAfter, repeatsAfter, ih, List.append_assoc,
        List.singleton_append]
      split <;> rfl

theorem firsts_concat_of_none (h : (as.find? fun b => key b = key a) = none) :
    firsts key (as ++ [a]) = firsts key as ++ [a] := by
  rw [firsts, firstsAfter_concat, List.nil_append, h]
  rfl

theorem firsts_concat_of_some (h : (as.find? fun b => key b = key a) = some first) :
    firsts key (as ++ [a]) = firsts key as := by
  rw [firsts, firstsAfter_concat, List.nil_append, h]
  exact List.append_nil _

theorem repeats_concat_of_none (h : (as.find? fun b => key b = key a) = none) :
    repeats key (as ++ [a]) = repeats key as := by
  rw [repeats, repeatsAfter_concat, List.nil_append, h]
  exact List.append_nil _

theorem repeats_concat_of_some (h : (as.find? fun b => key b = key a) = some first) :
    repeats key (as ++ [a]) = repeats key as ++ [(a, first)] := by
  rw [repeats, repeatsAfter_concat, List.nil_append, h]
  rfl

/-- Nothing is kept that was not there. -/
theorem mem_of_mem_firsts (h : a ∈ firsts key as) : a ∈ as := by
  induction as using List.reverseRecOn with
  | nil => exact h
  | append_singleton as b ih =>
      rw [List.mem_append]
      cases found : as.find? fun c => key c = key b with
      | none =>
          rw [firsts_concat_of_none found] at h
          exact (List.mem_append.mp h).imp_left ih
      | some first =>
          rw [firsts_concat_of_some found] at h
          exact .inl (ih h)

theorem fst_mem_of_mem_repeats {p : α × α} (h : p ∈ repeats key as) : p.1 ∈ as := by
  induction as using List.reverseRecOn with
  | nil => cases h
  | append_singleton as b ih =>
      rw [List.mem_append]
      cases found : as.find? fun c => key c = key b with
      | none =>
          rw [repeats_concat_of_none found] at h
          exact .inl (ih h)
      | some first =>
          rw [repeats_concat_of_some found] at h
          refine (List.mem_append.mp h).imp ih fun here => ?_
          rw [List.mem_singleton.mp here]
          exact List.mem_singleton_self b

/-! ### Tables -/

namespace Table

variable [Keyed β] {mk : α → β}

/-- In a table filled from a list a name finds the first entry of the list that bears it. -/
theorem find?_ofList (keys : ∀ a, Keyed.key (mk a) = key a) (as : List α) (n : String) :
    (empty.insertAll (as.map mk)).find? n = (as.find? fun a => key a = n).map mk := by
  rw [find?_insertAll, List.find?_map]
  simp only [Function.comp_def, keys]
  rfl

theorem insertAll_concat (t : Table β) (bs : List β) (b : β) :
    t.insertAll (bs ++ [b]) = (t.insertAll bs).insert b := insertAll_append t bs [b]

/-- A table filled from a list holds its first entries, in order. -/
theorem entries_ofList (keys : ∀ a, Keyed.key (mk a) = key a) (as : List α) :
    (empty.insertAll (as.map mk)).entries = (firsts key as).map mk := by
  induction as using List.reverseRecOn with
  | nil => rfl
  | append_singleton as a ih =>
      rw [List.map_append, List.map_singleton, insertAll_concat, entries_insert, ih, keys,
        find?_ofList keys]
      cases h : as.find? fun b => key b = key a with
      | none =>
          rw [firsts_concat_of_none h, List.map_append]
          rfl
      | some first =>
          rw [firsts_concat_of_some h]
          rfl

/-- Entries that are added in order leave the first of each name. -/
theorem entries_insertAll_empty (bs : List β) :
    (empty.insertAll bs).entries = firsts Keyed.key bs := by
  have keys (b : β) : Keyed.key (id b) = Keyed.key b := rfl
  have entries := entries_ofList keys bs
  rwa [List.map_id, List.map_id] at entries

end Table

end MetaAttack
