import MetaAttack.Registry.Table

/-!
# Filling tables

A table that is filled entry by entry keeps the first entry of each name. Where all names are
distinct it keeps every entry, in order.
-/

namespace MetaAttack

namespace Table

variable {α : Type} [Keyed α] {t : Table α} {a : α} {as : List α} {n : String}

theorem ext_entries {t u : Table α} (h : t.entries = u.entries) : t = u := by
  cases t
  cases u
  cases h
  rfl

/-- Two entries under one key are one entry. -/
theorem eq_of_key_eq {b : α} (ha : a ∈ t.entries) (hb : b ∈ t.entries)
    (h : Keyed.key a = Keyed.key b) : a = b := by
  have found := find?_key_of_mem hb
  rw [← h, find?_key_of_mem ha] at found
  exact Option.some.inj found

/-- A key that is taken keeps its entry. -/
theorem insert_of_find?_some {b : α} (h : t.find? (Keyed.key a) = some b) : t.insert a = t := by
  apply ext_entries
  rw [entries_insert, if_neg (by simp [h])]

/-- Adds entries in order. -/
def insertAll (t : Table α) (as : List α) : Table α := as.foldl insert t

theorem insertAll_cons (t : Table α) (a : α) (as : List α) :
    t.insertAll (a :: as) = (t.insert a).insertAll as := rfl

/-- Inserting goes in order. -/
theorem insertAll_append (t : Table α) (as bs : List α) :
    t.insertAll (as ++ bs) = (t.insertAll as).insertAll bs := List.foldl_append

/-- A name finds the first entry that bears it, the old ones first. -/
theorem find?_insertAll (t : Table α) (as : List α) (n : String) :
    (t.insertAll as).find? n = (t.find? n).or (as.find? fun a => Keyed.key a = n) := by
  induction as generalizing t with
  | nil => simp [insertAll]
  | cons a as ih =>
      rw [insertAll_cons, ih, find?_insert, List.find?_cons]
      by_cases hn : Keyed.key a = n <;> cases t.find? n <;> simp [hn]

/-- Nothing else comes in. -/
theorem mem_of_mem_insertAll (h : a ∈ (t.insertAll as).entries) : a ∈ t.entries ∨ a ∈ as := by
  have found := find?_key_of_mem h
  rw [find?_insertAll, Option.or_eq_some_iff] at found
  rcases found with old | ⟨_, new⟩
  · exact .inl (mem_of_find? old)
  · exact .inr (List.mem_of_find?_eq_some new)

theorem mem_of_mem_empty_insertAll (h : a ∈ (empty.insertAll as).entries) : a ∈ as :=
  (mem_of_mem_insertAll h).resolve_left List.not_mem_nil

/-- A name that comes next is new exactly if it does not repeat one of the table. -/
theorem nodup_insert_append_iff {l : List String} :
    (t.entries.map Keyed.key ++ Keyed.key a :: l).Nodup ↔
      t.find? (Keyed.key a) = none ∧ ((t.insert a).entries.map Keyed.key ++ l).Nodup := by
  rw [find?_eq_none, entries_insert]
  constructor
  · intro h
    have fresh : Keyed.key a ∉ t.entries.map Keyed.key := by
      intro hmem
      exact (List.nodup_append.mp h).2.2 _ hmem _ List.mem_cons_self rfl
    refine ⟨fresh, ?_⟩
    rw [if_pos (find?_eq_none.mpr fresh)]
    simpa using h
  · rintro ⟨fresh, h⟩
    rw [if_pos (find?_eq_none.mpr fresh)] at h
    simpa using h

theorem entries_insertAll (h : (t.entries.map Keyed.key ++ as.map Keyed.key).Nodup) :
    (t.insertAll as).entries = t.entries ++ as := by
  induction as generalizing t with
  | nil => simp [insertAll]
  | cons a as ih =>
      rw [List.map_cons, nodup_insert_append_iff] at h
      rw [insertAll_cons, ih h.2, entries_insert, if_pos h.1, List.append_assoc]
      rfl

/-- Entries with distinct names are all kept. -/
theorem entries_empty_insertAll (h : (as.map Keyed.key).Nodup) :
    (empty.insertAll as).entries = as := entries_insertAll h

end Table

end MetaAttack
