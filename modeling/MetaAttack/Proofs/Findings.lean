/-!
# Findings

A check goes through items and reports some of them. `Findings P as bs` says that `bs` is exactly
what it reports on `as`: in order, one finding for each item that `P` gives a finding for, and none
for any other item.
-/

namespace MetaAttack

/-- The findings on a list of items, at most one for each. -/
inductive Findings {α β : Type} (P : α → β → Prop) : List α → List β → Prop
  | nil : Findings P [] []
  | found {a b as bs} (holds : P a b) (rest : Findings P as bs) : Findings P (a :: as) (b :: bs)
  | clean {a as bs} (fails : ∀ b, ¬ P a b) (rest : Findings P as bs) : Findings P (a :: as) bs

namespace Findings

variable {α β γ : Type} {P : α → β → Prop} {as as' : List α} {bs bs' : List β}

/-- Nothing is found exactly if there is nothing to find. -/
theorem eq_nil_iff (h : Findings P as bs) : bs = [] ↔ ∀ a ∈ as, ∀ b, ¬ P a b := by
  induction h with
  | nil => simp
  | @found a b as bs holds rest ih =>
      constructor
      · intro h
        cases h
      · exact fun h => absurd holds (h a List.mem_cons_self b)
  | clean fails rest ih =>
      rw [ih, List.forall_mem_cons]
      exact (and_iff_right fails).symm

/-- Whatever is reported was found somewhere. -/
theorem exists_of_mem (h : Findings P as bs) {b : β} (hb : b ∈ bs) : ∃ a ∈ as, P a b := by
  induction h with
  | nil => cases hb
  | @found a c as bs holds rest ih =>
      rcases List.mem_cons.mp hb with rfl | hb
      · exact ⟨a, List.mem_cons_self, holds⟩
      · obtain ⟨d, hd, hP⟩ := ih hb
        exact ⟨d, List.mem_cons_of_mem a hd, hP⟩
  | @clean a as bs fails rest ih =>
      obtain ⟨d, hd, hP⟩ := ih hb
      exact ⟨d, List.mem_cons_of_mem a hd, hP⟩

/-- Whatever is there to find is reported. -/
theorem exists_of_found (h : Findings P as bs) {a : α} {b : β} (ha : a ∈ as) (hP : P a b) :
    ∃ c ∈ bs, P a c := by
  induction h with
  | nil => cases ha
  | @found d c as bs holds rest ih =>
      rcases List.mem_cons.mp ha with rfl | ha
      · exact ⟨c, List.mem_cons_self, holds⟩
      · obtain ⟨c', hc, hP'⟩ := ih ha
        exact ⟨c', List.mem_cons_of_mem c hc, hP'⟩
  | clean fails rest ih =>
      rcases List.mem_cons.mp ha with rfl | ha
      · exact absurd hP (fails b)
      · exact ih ha

/-- A property that gives at most one finding for an item determines all of them. -/
theorem unique (hP : ∀ a b c, P a b → P a c → b = c) (h : Findings P as bs)
    (h' : Findings P as bs') : bs = bs' := by
  induction h generalizing bs' with
  | nil =>
      cases h'
      rfl
  | found holds _ ih =>
      cases h' with
      | found holds' rest' => rw [hP _ _ _ holds holds', ih rest']
      | clean fails' _ => exact absurd holds (fails' _)
  | clean fails _ ih =>
      cases h' with
      | found holds' _ => exact absurd holds' (fails _)
      | clean _ rest' => exact ih rest'

/-- Where the findings with a property are those on one item, there is one of them. -/
theorem countP_eq_one (h : Findings P as bs) (nodup : as.Nodup) {q : β → Bool} {x : α}
    (hx : x ∈ as) (found : ∃ b, P x b) (only : ∀ a ∈ as, ∀ b, P a b → (q b = true ↔ a = x)) :
    bs.countP q = 1 := by
  induction h with
  | nil => cases hx
  | @found a b as bs holds rest ih =>
      obtain ⟨fresh, nodup⟩ := List.nodup_cons.mp nodup
      obtain ⟨here, only⟩ := List.forall_mem_cons.mp only
      by_cases ha : a = x
      · have others : bs.countP q = 0 := by
          rw [List.countP_eq_zero]
          intro c hc hq
          obtain ⟨d, hd, hP⟩ := rest.exists_of_mem hc
          obtain rfl := (only d hd c hP).mp hq
          exact fresh (ha ▸ hd)
        rw [List.countP_cons_of_pos ((here b holds).mpr ha), others]
      · have hx := (List.mem_cons.mp hx).resolve_left (Ne.symm ha)
        rw [List.countP_cons_of_neg (mt (here b holds).mp ha), ih nodup hx only]
  | @clean a as bs fails rest ih =>
      obtain ⟨y, hy⟩ := found
      have ne : x ≠ a := by
        rintro rfl
        exact fails y hy
      exact ih (List.nodup_cons.mp nodup).2 ((List.mem_cons.mp hx).resolve_left ne)
        (List.forall_mem_cons.mp only).2

/-- Two lists that were looked through one after the other. -/
theorem append (h : Findings P as bs) (h' : Findings P as' bs') :
    Findings P (as ++ as') (bs ++ bs') := by
  induction h with
  | nil => exact h'
  | found holds rest ih => exact .found holds ih
  | clean fails rest ih => exact .clean fails ih

/-- Where nothing can be found, nothing is. -/
theorem of_none (h : ∀ a ∈ as, ∀ b, ¬ P a b) : Findings P as [] := by
  induction as with
  | nil => exact .nil
  | cons a as ih =>
      obtain ⟨ha, has⟩ := List.forall_mem_cons.mp h
      exact .clean ha (ih has)

/-- The finding on a single item that is reported under a condition. -/
theorem of_ite {a : α} {b : β} {c : Prop} [Decidable c] (h : ∀ b', P a b' ↔ c ∧ b' = b) :
    Findings P [a] (if c then [b] else []) := by
  split
  · next holds => exact .found ((h b).mpr ⟨holds, rfl⟩) .nil
  · next fails => exact .clean (fun b' hP => fails ((h b').mp hP).1) .nil

/-- A function that answers for each item what is found on it lists the findings. -/
theorem of_filterMap {f : α → Option β} (h : ∀ a ∈ as, ∀ b, f a = some b ↔ P a b) :
    Findings P as (as.filterMap f) := by
  induction as with
  | nil => exact .nil
  | cons a as ih =>
      obtain ⟨ha, has⟩ := List.forall_mem_cons.mp h
      rw [List.filterMap_cons]
      cases hf : f a with
      | none => exact .clean (fun b hP => by simp [(ha b).mpr hP] at hf) (ih has)
      | some b => exact .found ((ha b).mp hf) (ih has)

/-- Findings that are reported by one function. -/
theorem map {Q : α → γ → Prop} {f : β → γ} (h : Findings P as bs) (pos : ∀ a b, P a b → Q a (f b))
    (neg : ∀ a c, Q a c → ∃ b, P a b) : Findings Q as (bs.map f) := by
  induction h with
  | nil => exact .nil
  | found holds rest ih => exact .found (pos _ _ holds) ih
  | clean fails rest ih =>
      refine .clean (fun c hQ => ?_) ih
      obtain ⟨b, hP⟩ := neg _ c hQ
      exact fails b hP

theorem of_map {cs : List γ} {g : γ → α} (h : Findings (fun c => P (g c)) cs bs) :
    Findings P (cs.map g) bs := by
  induction h with
  | nil => exact .nil
  | found holds rest ih => exact .found holds ih
  | clean fails rest ih => exact .clean fails ih

theorem of_flatMap {cs : List γ} {f : γ → List α} {g : γ → List β}
    (h : ∀ c ∈ cs, Findings P (f c) (g c)) : Findings P (cs.flatMap f) (cs.flatMap g) := by
  induction cs with
  | nil => exact .nil
  | cons c cs ih =>
      obtain ⟨hc, hcs⟩ := List.forall_mem_cons.mp h
      rw [List.flatMap_cons, List.flatMap_cons]
      exact hc.append (ih hcs)

/-- What is reported one entry at a time is reported for all of them. -/
theorem of_each {g : α → List β} (h : ∀ a ∈ as, Findings P [a] (g a)) :
    Findings P as (as.flatMap g) := by
  induction as with
  | nil => exact .nil
  | cons a as ih =>
      obtain ⟨ha, has⟩ := List.forall_mem_cons.mp h
      exact ha.append (ih has)

/-- Where the items that fail a test give rise to nothing, it may be applied before. -/
theorem of_flatMap_filter {cs : List γ} {p : γ → Bool} {f : γ → List α} {g : γ → List β}
    (pos : ∀ c ∈ cs, p c = true → Findings P (f c) (g c))
    (neg : ∀ c ∈ cs, p c = false → ∀ a ∈ f c, ∀ b, ¬ P a b) :
    Findings P (cs.flatMap f) ((cs.filter p).flatMap g) := by
  induction cs with
  | nil => exact .nil
  | cons c cs ih =>
      obtain ⟨pos, pos'⟩ := List.forall_mem_cons.mp pos
      obtain ⟨neg, neg'⟩ := List.forall_mem_cons.mp neg
      rw [List.flatMap_cons]
      cases hp : p c with
      | true =>
          rw [List.filter_cons_of_pos hp, List.flatMap_cons]
          exact (pos hp).append (ih pos' neg')
      | false =>
          rw [List.filter_cons_of_neg (by simp [hp])]
          exact (of_none (neg hp)).append (ih pos' neg')

end Findings

end MetaAttack
