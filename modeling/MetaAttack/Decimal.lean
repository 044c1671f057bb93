/-!
# Decimal numerals

A numeral of digits, with or without a fraction, stands for a quotient of naturals, and its value is
the double nearest to that quotient, the even one on a tie. Everything up to the bits of the double
is arithmetic on naturals: a positive double with the bits `s * 2 ^ 52 + m` has the value
`m * 2 ^ s / 2 ^ 1074`, a normal one for `2 ^ 52 ≤ m`, a subnormal one for `s = 0`.
-/

namespace MetaAttack

namespace Decimal

/-- The natural nearest to `a / b`, the even one on a tie. -/
def roundQuotient (a b : Nat) : Nat :=
  if 2 * (a % b) < b ∨ (2 * (a % b) = b ∧ a / b % 2 = 0) then a / b else a / b + 1

/-- Rounding moves a quotient by at most one half. -/
theorem roundQuotient_near (a : Nat) {b : Nat} (hb : 0 < b) :
    2 * a ≤ 2 * (b * roundQuotient a b) + b ∧ 2 * (b * roundQuotient a b) ≤ 2 * a + b := by
  have h := Nat.div_add_mod a b
  have hlt := Nat.mod_lt a hb
  unfold roundQuotient
  split
  · omega
  · have : b * (a / b + 1) = b * (a / b) + b := by rw [Nat.mul_add, Nat.mul_one]
    omega

/-- The bits of positive infinity. -/
def infinityBits : Nat := 0x7ff * Nat.pow 2 52

/-- The bits of the double nearest to `num / den`; a quotient beyond every double gives infinity. -/
def nearestBits (num den : Nat) : Nat :=
  let n := num * Nat.pow 2 1074
  let s := n.log2 - den.log2 - 53
  let s := if n / (den * Nat.pow 2 s) < Nat.pow 2 53 then s else s + 1
  min (s * Nat.pow 2 52 + roundQuotient n (den * Nat.pow 2 s)) infinityBits

/-- The natural that a sequence of digits denotes. -/
def natOfDigits (digits : List Char) : Nat :=
  digits.foldl (fun n c => 10 * n + (c.toNat - '0'.toNat)) 0

def isNumeral (digits : List Char) : Bool := !digits.isEmpty && digits.all Char.isDigit

/-- The value of the numeral `whole` or, with a fraction, `whole.fraction`. -/
def value? (whole : String) (fraction : Option String) : Option Float :=
  let w := whole.toList
  let f := (fraction.map String.toList).getD []
  if isNumeral w && fraction.all (fun s => isNumeral s.toList) then
    some (Float.ofBits (nearestBits (natOfDigits (w ++ f)) (Nat.pow 10 f.length)).toUInt64)
  else none

/-- A numeral as it is written. -/
def text (whole : String) : Option String → String
  | none => whole
  | some fraction => whole ++ "." ++ fraction

end Decimal

end MetaAttack
