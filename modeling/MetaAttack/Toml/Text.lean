/-!
# TOML strings, read and written

There are four forms of strings: on one line or over several, with escapes or without. A reader
takes the text behind the opening quotes and yields the characters of the string with the text
behind the closing quotes. `quote` chooses, for a given string, the plainest form that can hold it.
-/

namespace MetaAttack.Toml

/-- Control characters may not stand in a text as they are, except for tabs and line ends. -/
def isControl (c : Char) : Bool := c.toNat < 0x20 || c.toNat = 0x7f

def isBlank (c : Char) : Bool := c = ' ' || c = '\t'

/-- Whether a character may stand anywhere on a line. -/
def isInline (c : Char) : Bool := c = '\t' || !isControl c

/-- The character with the code that some hexadecimal digits denote. -/
def charOfHex? (digits : List Char) : Option Char := do
  let n ← digits.foldlM (fun n c =>
    if c.isDigit then some (16 * n + (c.toNat - '0'.toNat))
    else if 'a' ≤ c ∧ c ≤ 'f' then some (16 * n + (c.toNat - 'a'.toNat + 10))
    else if 'A' ≤ c ∧ c ≤ 'F' then some (16 * n + (c.toNat - 'A'.toNat + 10))
    else none) 0
  if n.isValidChar then some (Char.ofNat n) else none

/-- The character that an escape of one letter stands for. -/
def escaped? : Char → Option Char
  | 'b' => some '\x08'
  | 't' => some '\t'
  | 'n' => some '\n'
  | 'f' => some '\x0c'
  | 'r' => some '\r'
  | '"' => some '"'
  | '\\' => some '\\'
  | _ => none

/-- Puts a character in front of what a reader found. -/
def before (c : Char) (found : Option (List Char × List Char)) : Option (List Char × List Char) :=
  found.map fun (s, rest) => (c :: s, rest)

/-- Reads a string with escapes on one line. -/
def basic : List Char → Option (List Char × List Char)
  | '"' :: r => some ([], r)
  | '\\' :: 'u' :: a :: b :: c :: d :: r => do before (← charOfHex? [a, b, c, d]) (basic r)
  | '\\' :: 'U' :: a :: b :: c :: d :: e :: f :: g :: h :: r => do
      before (← charOfHex? [a, b, c, d, e, f, g, h]) (basic r)
  | '\\' :: c :: r => do before (← escaped? c) (basic r)
  | c :: r => if isInline c && c ≠ '\\' then before c (basic r) else none
  | [] => none

/-- Reads a string without escapes on one line. -/
def literal : List Char → Option (List Char × List Char)
  | '\'' :: r => some ([], r)
  | c :: r => if isInline c then before c (literal r) else none
  | [] => none

/-- Whether nothing but blanks is left on a line that has an end. -/
def endsLine (cs : List Char) : Bool :=
  match cs.dropWhile isBlank with
  | '\n' :: _ | '\r' :: '\n' :: _ => true
  | _ => false

/-- Reads a string with escapes over several lines; while `skipping`, blanks and line ends are left
out. Up to two quotes may stand before the closing ones. -/
def basicLines (skipping : Bool) : List Char → Option (List Char × List Char)
  | '"' :: '"' :: '"' :: '"' :: '"' :: r => some (['"', '"'], r)
  | '"' :: '"' :: '"' :: '"' :: r => some (['"'], r)
  | '"' :: '"' :: '"' :: r => some ([], r)
  | '\r' :: '\n' :: r => if skipping then basicLines true r else before '\n' (basicLines false r)
  | '\n' :: r => if skipping then basicLines true r else before '\n' (basicLines false r)
  | '\\' :: 'u' :: a :: b :: c :: d :: r => do
      before (← charOfHex? [a, b, c, d]) (basicLines false r)
  | '\\' :: 'U' :: a :: b :: c :: d :: e :: f :: g :: h :: r => do
      before (← charOfHex? [a, b, c, d, e, f, g, h]) (basicLines false r)
  | '\\' :: c :: r =>
      if endsLine (c :: r) then if isBlank c || c = '\n' || c = '\r' then basicLines true (c :: r)
        else none
      else do before (← escaped? c) (basicLines false r)
  | c :: r =>
      if skipping && isBlank c then basicLines true r
      else if isInline c && c ≠ '\\' then before c (basicLines false r)
      else none
  | [] => none

/-- Reads a string without escapes over several lines. -/
def literalLines : List Char → Option (List Char × List Char)
  | '\'' :: '\'' :: '\'' :: '\'' :: '\'' :: r => some (['\'', '\''], r)
  | '\'' :: '\'' :: '\'' :: '\'' :: r => some (['\''], r)
  | '\'' :: '\'' :: '\'' :: r => some ([], r)
  | '\r' :: '\n' :: r => before '\n' (literalLines r)
  | '\n' :: r => before '\n' (literalLines r)
  | c :: r => if isInline c then before c (literalLines r) else none
  | [] => none

/-- A line end right behind the opening quotes is no part of a string over several lines. -/
def dropLineEnd : List Char → List Char
  | '\r' :: '\n' :: r => r
  | '\n' :: r => r
  | r => r

/-- Reads a string on one line, from its opening quote on. -/
def shortString : List Char → Option (List Char × List Char)
  | '"' :: r => basic r
  | '\'' :: r => literal r
  | _ => none

/-- Reads a string of any form, from its opening quotes on. -/
def anyString : List Char → Option (List Char × List Char)
  | '"' :: '"' :: '"' :: r => basicLines false (dropLineEnd r)
  | '\'' :: '\'' :: '\'' :: r => literalLines (dropLineEnd r)
  | r => shortString r

/-- The longest run of a character, where the last `current` characters before were that one and the
longest run among them is `best`. -/
def longestRun (q : Char) (current best : Nat) : List Char → Nat
  | [] => best
  | c :: r =>
      if c = q then longestRun q (current + 1) (max best (current + 1)) r
      else longestRun q 0 best r

/-- Four hexadecimal digits. -/
def hex4 (n : Nat) : List Char :=
  let digits := (Nat.toDigits 16 n).map Char.toUpper
  List.replicate (4 - digits.length) '0' ++ digits

/-- How a character other than a quote is written where escapes count. -/
def escapeChar (lines : Bool) (c : Char) : List Char :=
  if c = '\\' then ['\\', '\\']
  else if c = '\n' then if lines then ['\n'] else ['\\', 'n']
  else if c = '\t' then ['\\', 't']
  else if c = '\x08' then ['\\', 'b']
  else if c = '\x0c' then ['\\', 'f']
  else if c = '\r' then ['\\', 'r']
  else if isControl c then '\\' :: 'u' :: hex4 c.toNat
  else [c]

/-- A text where escapes count, with at most `run` quotes next to each other that are not escaped;
`quotes` of them stand just before. -/
def escapeAll (lines : Bool) (run quotes : Nat) : List Char → List Char
  | [] => []
  | '"' :: r =>
      if quotes < run then '"' :: escapeAll lines run (quotes + 1) r
      else '\\' :: '"' :: escapeAll lines run 0 r
  | c :: r => escapeChar lines c ++ escapeAll lines run 0 r

/-- A string in a form that holds it: escapes only where there is no other way, and one line where
it has only one. -/
def quoteChars (s : List Char) : List Char :=
  let plain := s.all fun c => c = '\t' || c = '\n' || !isControl c
  let slash := s.contains '\\'
  let lines := s.contains '\n'
  let double := longestRun '"' 0 0 s
  let single := longestRun '\'' 0 0 s
  let lead := if lines then ['\n'] else []
  let basicForm := ['"'] ++ escapeAll false 0 0 s ++ ['"']
  let basicLinesForm := ['"', '"', '"'] ++ lead ++ escapeAll true 2 0 s ++ ['"', '"', '"']
  let literalForm := ['\''] ++ s ++ ['\'']
  let literalLinesForm := ['\'', '\'', '\''] ++ lead ++ s ++ ['\'', '\'', '\'']
  if plain && !slash && double = 0 && !lines then basicForm
  else if plain && single = 0 && !lines then literalForm
  else if plain && !slash && double ≤ 2 then basicLinesForm
  else if plain && single ≤ 2 then literalLinesForm
  else if lines then basicLinesForm
  else basicForm

def quote (s : String) : String := String.ofList (quoteChars s.toList)

end MetaAttack.Toml
