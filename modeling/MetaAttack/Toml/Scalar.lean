import MetaAttack.Decimal
import MetaAttack.Toml.Node

/-!
# TOML numbers and times

Each reader takes what it can off the front of a text and yields the rest; `none` means that the
text does not start so.
-/

namespace MetaAttack.Toml

/-- Reads digits with an underscore between any two of them allowed. -/
def moreDigits (p : Char → Bool) : List Char → List Char × List Char
  | '_' :: c :: r =>
      if p c then
        let (ds, rest) := moreDigits p r
        (c :: ds, rest)
      else ([], '_' :: c :: r)
  | c :: r =>
      if p c then
        let (ds, rest) := moreDigits p r
        (c :: ds, rest)
      else ([], c :: r)
  | [] => ([], [])

/-- Reads one digit or more. -/
def digits (p : Char → Bool) : List Char → Option (List Char × List Char)
  | c :: r =>
      if p c then
        let (ds, rest) := moreDigits p r
        some (c :: ds, rest)
      else none
  | [] => none

/-- Reads a sign, if there is one; it is true for a minus. -/
def leadingSign : List Char → Bool × List Char
  | '-' :: r => (true, r)
  | '+' :: r => (false, r)
  | r => (false, r)

/-- Reads the digits of a decimal integer; a zero stands alone. -/
def decimalDigits : List Char → Option (List Char × List Char)
  | '0' :: r => some (['0'], r)
  | r => digits Char.isDigit r

/-- Reads a word exactly. -/
def word (w : List Char) (cs : List Char) : Option (List Char) :=
  if w.isPrefixOf cs then some (cs.drop w.length) else none

def hexValue (c : Char) : Nat :=
  if c.isDigit then c.toNat - '0'.toNat
  else if 'a' ≤ c then c.toNat - 'a'.toNat + 10
  else c.toNat - 'A'.toNat + 10

def isHex (c : Char) : Bool := c.isDigit || ('a' ≤ c && c ≤ 'f') || ('A' ≤ c && c ≤ 'F')

/-- An integer that fits into 64 bits. -/
def bounded (n : Int) : Option Node :=
  if -0x8000000000000000 ≤ n ∧ n < 0x8000000000000000 then some (.integer n) else none

/-- Reads the digits of an integer to a base. -/
def based (base : Nat) (p : Char → Bool) (cs : List Char) : Option (Node × List Char) := do
  let (ds, rest) ← digits p cs
  let n ← bounded (ds.foldl (fun n c => base * n + hexValue c) 0 : Nat)
  return (n, rest)

/-- Reads an integer. -/
def integer : List Char → Option (Node × List Char)
  | '0' :: 'x' :: r => based 16 isHex r
  | '0' :: 'o' :: r => based 8 (fun c => '0' ≤ c && c ≤ '7') r
  | '0' :: 'b' :: r => based 2 (fun c => c = '0' || c = '1') r
  | cs => do
      let (negative, r) := leadingSign cs
      let (ds, rest) ← decimalDigits r
      let n := Decimal.natOfDigits ds
      return (← bounded (if negative then -n else n), rest)

/-- Reads an exponent: its sign and its digits. -/
def exponent : List Char → Option ((Bool × List Char) × List Char)
  | c :: r =>
      if c = 'e' || c = 'E' then do
        let (negative, r) := leadingSign r
        let (ds, rest) ← digits Char.isDigit r
        return ((negative, ds), rest)
      else none
  | [] => none

/-- Whether `mantissa * 10 ^ shift / 10 ^ places` is beyond all doubles. -/
def isTooLarge (mantissa shift places : Nat) : Bool :=
  mantissa ≠ 0 && (400 + places < shift ||
    Decimal.nearestBits (mantissa * Nat.pow 10 shift) (Nat.pow 10 places) = Decimal.infinityBits)

/-- Reads a number with a fraction, an exponent or both. One beyond all doubles is refused, unless
it is negative. -/
def float (cs : List Char) : Option (Node × List Char) :=
  let (negative, r) := leadingSign cs
  match word ['i', 'n', 'f'] r, word ['n', 'a', 'n'] r with
  | some rest, _ => some (.float "inf", rest)
  | _, some rest => some (.float "nan", rest)
  | none, none => do
      let (whole, r) ← decimalDigits r
      let (fraction, r) ←
        match r with
        | '.' :: r => digits Char.isDigit r
        | r => if (exponent r).isSome then some ([], r) else none
      let ((down, exp), rest) := (exponent r).getD ((false, []), r)
      let mantissa := Decimal.natOfDigits (whole ++ fraction)
      let shift := Decimal.natOfDigits exp
      if !down && !negative && isTooLarge mantissa shift fraction.length then none
      else some (.float (String.ofList (cs.take (cs.length - rest.length))), rest)

/-- Reads exactly two digits, in the given range. -/
def twoDigits (low high : Nat) : List Char → Option (Nat × List Char)
  | a :: b :: r =>
      let n := Decimal.natOfDigits [a, b]
      if a.isDigit && b.isDigit && low ≤ n && n ≤ high then some (n, r) else none
  | _ => none

/-- The number of days of a month. -/
def daysIn (year month : Nat) : Nat :=
  if month = 2 then
    if year % 4 = 0 ∧ (year % 100 ≠ 0 ∨ year % 400 = 0) then 29 else 28
  else if month = 4 ∨ month = 6 ∨ month = 9 ∨ month = 11 then 30
  else 31

/-- Reads `year-month-day`. -/
def date : List Char → Option (List Char)
  | a :: b :: c :: d :: '-' :: r =>
      if [a, b, c, d].all Char.isDigit then do
        let (month, r) ← twoDigits 1 12 r
        let r ← word ['-'] r
        let (_, rest) ← twoDigits 1 (daysIn (Decimal.natOfDigits [a, b, c, d]) month) r
        return rest
      else none
  | _ => none

/-- Reads `hour:minute:second`, with an optional fraction. -/
def timeOfDay (cs : List Char) : Option (List Char) := do
  let (_, r) ← twoDigits 0 23 cs
  let r ← word [':'] r
  let (_, r) ← twoDigits 0 59 r
  let r ← word [':'] r
  let (_, r) ← twoDigits 0 60 r
  match r with
  | '.' :: c :: s => if c.isDigit then return s.dropWhile Char.isDigit else none
  | r => return r

/-- Reads the distance from universal time, if there is one. -/
def offset (cs : List Char) : Option (List Char) :=
  match cs with
  | 'Z' :: r | 'z' :: r => some r
  | '+' :: r | '-' :: r => do
      let (_, r) ← twoDigits 0 23 r
      let r ← word [':'] r
      let (_, r) ← twoDigits 0 59 r
      return r
  | r => some r

/-- Reads a date, a time of day, or both. -/
def time (cs : List Char) : Option (Node × List Char) :=
  let node (rest : List Char) :=
    (Node.time (String.ofList (cs.take (cs.length - rest.length))), rest)
  match date cs with
  | some r =>
      match r with
      | c :: s =>
          if c = 'T' || c = 't' || c = ' ' then
            match timeOfDay s with
            | some s => (offset s).map node
            | none => some (node r)
          else some (node r)
      | [] => some (node r)
  | none => (timeOfDay cs).map node

end MetaAttack.Toml
