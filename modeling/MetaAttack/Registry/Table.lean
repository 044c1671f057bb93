/-!
# Ordered tables

A table holds entries under names, in the order in which they were added, and no two entries have
the same name. Adding never replaces: the entry that holds a name first keeps it.
-/

namespace MetaAttack

/-- Entries that are found by a name. -/
class Keyed (α : Type) where
  key : α → String

/-- Entries in the order in which they were added, each under a name of its own. -/
structure Table (α : Type) [Keyed α] where
  entries : List α
  nodup : (entries.map Keyed.key).Nodup

namespace Table

variable {α : Type} [Keyed α]

def empty : Table α := ⟨[], List.nodup_nil⟩

instance : Inhabited (Table α) := ⟨empty⟩

/-- The entry under a name. -/
def find? (t : Table α) (name : String) : Option α :=
  t.entries.find? fun a => Keyed.key a = name

def contains (t : Table α) (name : String) : Bool := (t.find? name).isSome

def size (t : Table α) : Nat := t.entries.length

theorem mem_of_find? {t : Table α} {name : String} {a : α} (h : t.find? name = some a) :
    a ∈ t.entries := List.mem_of_find?_eq_some h

theorem key_of_find? {t : Table α} {name : String} {a : α} (h : t.find? name = some a) :
    Keyed.key a = name := by
  simpa using List.find?_some h

theorem find?_eq_none {t : Table α} {name : String} :
    t.find? name = none ↔ name ∉ t.entries.map Keyed.key := by
  simp [find?, List.find?_eq_none]

theorem find?_key_of_mem {t : Table α} {a : α} (h : a ∈ t.entries) :
    t.find? (Keyed.key a) = some a := by
  obtain ⟨es, nodup⟩ := t
  simp only [find?] at h ⊢
  induction es with
  | nil => simp at h
  | cons e es ih =>
      rw [List.map_cons, List.nodup_cons] at nodup
      rcases List.mem_cons.1 h with rfl | h
      · simp
      · have : Keyed.key e ≠ Keyed.key a := fun he =>
          nodup.1 (he ▸ List.mem_map_of_mem h)
        simpa [List.find?_cons, this] using ih nodup.2 h

/-- A name finds exactly the entry that bears it. -/
theorem find?_eq_some_iff {t : Table α} {name : String} {a : α} :
    t.find? name = some a ↔ a ∈ t.entries ∧ Keyed.key a = name :=
  ⟨fun h => ⟨mem_of_find? h, key_of_find? h⟩, fun ⟨h, e⟩ => e ▸ find?_key_of_mem h⟩

/-- Adds an entry behind the others, unless its name is taken. -/
def insert (t : Table α) (a : α) : Table α :=
  if h : t.find? (Keyed.key a) = none then
    ⟨t.entries ++ [a], by
      rw [List.map_append, List.nodup_append]
      refine ⟨t.nodup, by simp, fun x hx y hy => ?_⟩
      rintro rfl
      exact find?_eq_none.1 h (by simp_all)⟩
  else t

theorem entries_insert (t : Table α) (a : α) :
    (t.insert a).entries =
      if t.find? (Keyed.key a) = none then t.entries ++ [a] else t.entries := by
  unfold insert
  split <;> simp_all

theorem find?_insert (t : Table α) (a : α) (name : String) :
    (t.insert a).find? name =
      (t.find? name).or (if Keyed.key a = name then some a else none) := by
  unfold insert
  split
  · next h =>
    simp only [find?, List.find?_append]
    by_cases hn : Keyed.key a = name <;> simp [hn]
  · next h =>
    by_cases hn : Keyed.key a = name
    · subst hn
      obtain ⟨b, hb⟩ := Option.ne_none_iff_exists'.1 h
      simp [hb]
    · simp [hn]

/-- Changes every entry by a function that keeps names. -/
def map (t : Table α) (f : α → α) (hf : ∀ a, Keyed.key (f a) = Keyed.key a) : Table α :=
  ⟨t.entries.map f, by
    have : Keyed.key ∘ f = (Keyed.key : α → String) := funext hf
    rw [List.map_map, this]
    exact t.nodup⟩

/-- Changes the entry under a name by a function that keeps names. -/
def modify (t : Table α) (name : String) (f : α → α) (hf : ∀ a, Keyed.key (f a) = Keyed.key a) :
    Table α :=
  t.map (fun a => if Keyed.key a = name then f a else a) fun a => by
    split
    · exact hf a
    · rfl

theorem find?_map (t : Table α) (f : α → α) (hf : ∀ a, Keyed.key (f a) = Keyed.key a)
    (name : String) : (t.map f hf).find? name = (t.find? name).map f := by
  simp only [find?, map, List.find?_map]
  congr 2
  funext a
  simp [hf]

end Table

end MetaAttack
