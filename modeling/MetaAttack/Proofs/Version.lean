import Mathlib.Data.List.Basic
import Mathlib.Data.List.Induction
import MetaAttack.Check.Defines

/-!
# Versions

A text is taken for a version exactly if it is three natural numbers, written in decimal, with dots
between them.
-/

namespace MetaAttack

/-- The text is three natural numbers with dots between them. -/
def IsVersion (s : String) : Prop :=
  ∃ major minor patch : Nat, s = major.repr ++ "." ++ minor.repr ++ "." ++ patch.repr

/-! ### Numerals -/

theorem digitChar_of_isDigit {c : Char} (h : c.isDigit) :
    Nat.digitChar (c.toNat - 48) = c ∧ c.toNat - 48 < 10 ∧ 48 ≤ c.toNat := by
  rw [Char.isDigit_iff_toNat] at h
  obtain ⟨low, high⟩ := h
  change 48 ≤ c.toNat at low
  change c.toNat ≤ 57 at high
  have small : c.toNat - 48 < 10 := by omega
  refine ⟨?_, small, low⟩
  apply Char.toNat_inj.mp
  rw [Nat.toNat_digitChar_of_lt_ten small]
  omega

theorem head?_toDigits_ne_zero {n : Nat} (h : 0 < n) : (Nat.toDigits 10 n).head? ≠ some '0' := by
  induction n using Nat.strongRecOn with
  | ind n ih =>
      by_cases hn : n < 10
      · rw [Nat.toDigits_of_lt_base hn]
        intro hzero
        have digit : Nat.digitChar n = '0' := by simpa using hzero
        have := congrArg Char.toNat digit
        rw [Nat.toNat_digitChar_of_lt_ten hn] at this
        change 48 + n = 48 at this
        omega
      · rw [Nat.toDigits_of_base_le (by omega) (by omega)]
        have rest : Nat.toDigits 10 (n / 10) ≠ [] := Nat.toDigits_ne_nil
        rw [List.head?_append_of_ne_nil _ rest]
        exact ih (n / 10) (by omega) (by omega)

/-- Digits that do not start with a zero are a positive number. -/
theorem exists_toDigits {ds : List Char} (digits : ∀ c ∈ ds, c.isDigit) (hne : ds ≠ [])
    (head : ds.head? ≠ some '0') : ∃ n, 0 < n ∧ ds = Nat.toDigits 10 n := by
  induction ds using List.reverseRecOn with
  | nil => exact absurd rfl hne
  | append_singleton ds c ih =>
      obtain ⟨back, small, low⟩ := digitChar_of_isDigit (digits c (by simp))
      by_cases hds : ds = []
      · subst hds
        refine ⟨c.toNat - 48, ?_, ?_⟩
        · have : c ≠ '0' := by simpa using head
          have : c.toNat ≠ 48 := fun h => this (Char.toNat_inj.mp h)
          omega
        · rw [Nat.toDigits_of_lt_base small, back]
          rfl
      · rw [List.head?_append_of_ne_nil _ hds] at head
        obtain ⟨n, hn, rfl⟩ := ih (fun d hd => digits d (by simp [hd])) hds head
        refine ⟨10 * n + (c.toNat - 48), by omega, ?_⟩
        rw [← Nat.toDigits_append_toDigits (by omega) hn small, Nat.toDigits_of_lt_base small, back]

/-- A plain numeral is a natural number in decimal. -/
theorem isPlainNumeral_iff {ds : List Char} :
    isPlainNumeral ds = true ↔ ∃ n, ds = Nat.toDigits 10 n := by
  simp only [isPlainNumeral, Bool.and_eq_true, Bool.or_eq_true, Bool.not_eq_true',
    List.isEmpty_eq_false_iff, List.all_eq_true, decide_eq_true_eq]
  constructor
  · rintro ⟨⟨hne, digits⟩, short | head⟩
    · obtain ⟨c, rfl⟩ := List.length_eq_one_iff.mp short
      obtain ⟨back, small, _⟩ := digitChar_of_isDigit (digits c (by simp))
      exact ⟨c.toNat - 48, by rw [Nat.toDigits_of_lt_base small, back]⟩
    · obtain ⟨n, _, h⟩ := exists_toDigits digits hne head
      exact ⟨n, h⟩
  · rintro ⟨n, rfl⟩
    refine ⟨⟨Nat.toDigits_ne_nil, fun c hc => Nat.isDigit_of_mem_toDigits (by omega) (by omega) hc⟩,
      ?_⟩
    by_cases hn : n = 0
    · left
      rw [hn, Nat.toDigits_zero]
      rfl
    · exact .inr (head?_toDigits_ne_zero (by omega))

/-! ### Parts -/

theorem dotParts_ne_nil (cs : List Char) : dotParts cs ≠ [] := by
  cases cs with
  | nil => simp [dotParts]
  | cons c cs =>
      rw [dotParts]
      split
      · simp
      · split <;> simp

/-- Text without a dot is one part. -/
theorem dotParts_of_not_mem {cs : List Char} (h : '.' ∉ cs) : dotParts cs = [cs] := by
  induction cs with
  | nil => rfl
  | cons c cs ih =>
      rw [List.mem_cons, not_or] at h
      rw [dotParts, if_neg (fun hc => h.1 hc.symm), ih h.2]

/-- The first dot ends the first part. -/
theorem dotParts_append_dot {cs : List Char} (h : '.' ∉ cs) (ds : List Char) :
    dotParts (cs ++ '.' :: ds) = cs :: dotParts ds := by
  induction cs with
  | nil => simp [dotParts]
  | cons c cs ih =>
      rw [List.mem_cons, not_or] at h
      rw [List.cons_append, dotParts, if_neg (fun hc => h.1 hc.symm), ih h.2]

/-- The parts with dots between them are the text. -/
theorem intercalate_dotParts (cs : List Char) : ['.'].intercalate (dotParts cs) = cs := by
  induction cs with
  | nil => rfl
  | cons c cs ih =>
      obtain ⟨p, ps, hps⟩ := List.exists_cons_of_ne_nil (dotParts_ne_nil cs)
      rw [dotParts]
      split
      · next hc =>
        rw [hps] at ih ⊢
        rw [hc]
        simpa using ih
      · rw [hps] at ih ⊢
        cases ps <;> simpa using ih

theorem dot_not_mem_toDigits (n : Nat) : '.' ∉ Nat.toDigits 10 n := by
  intro h
  have := Nat.isDigit_of_mem_toDigits (by omega) (by omega) h
  simp at this

/-- The check of versions accepts exactly the versions. -/
theorem isPlainVersion_iff {s : String} : isPlainVersion s = true ↔ IsVersion s := by
  have toList : ∀ a b c : Nat, (a.repr ++ "." ++ b.repr ++ "." ++ c.repr).toList =
      Nat.toDigits 10 a ++ '.' :: (Nat.toDigits 10 b ++ '.' :: Nat.toDigits 10 c) := by
    intro a b c
    simp
  simp only [isPlainVersion, Bool.and_eq_true, decide_eq_true_eq, List.all_eq_true]
  constructor
  · rintro ⟨three, numerals⟩
    obtain ⟨p, q, r, hparts⟩ := List.length_eq_three.mp three
    have joined := intercalate_dotParts s.toList
    rw [hparts] at numerals joined
    obtain ⟨a, rfl⟩ := isPlainNumeral_iff.mp (numerals p (by simp))
    obtain ⟨b, rfl⟩ := isPlainNumeral_iff.mp (numerals q (by simp))
    obtain ⟨c, rfl⟩ := isPlainNumeral_iff.mp (numerals r (by simp))
    refine ⟨a, b, c, String.toList_injective ?_⟩
    rw [toList, ← joined]
    simp
  · rintro ⟨a, b, c, rfl⟩
    have parts : dotParts (a.repr ++ "." ++ b.repr ++ "." ++ c.repr).toList =
        [Nat.toDigits 10 a, Nat.toDigits 10 b, Nat.toDigits 10 c] := by
      rw [toList, dotParts_append_dot (dot_not_mem_toDigits a),
        dotParts_append_dot (dot_not_mem_toDigits b),
        dotParts_of_not_mem (dot_not_mem_toDigits c)]
    rw [parts]
    refine ⟨rfl, fun p hp => isPlainNumeral_iff.mpr ?_⟩
    simp only [List.mem_cons, List.not_mem_nil, or_false] at hp
    rcases hp with rfl | rfl | rfl
    · exact ⟨a, rfl⟩
    · exact ⟨b, rfl⟩
    · exact ⟨c, rfl⟩

end MetaAttack
