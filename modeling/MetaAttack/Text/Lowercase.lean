import MetaAttack.Text.Case

/-!
# Lower case

A text is put into lower case letter by letter. Two letters need more than the table: `İ` becomes an
`i` with a dot above, and a capital sigma has another lower case form at the end of a word.
-/

namespace MetaAttack.Text

def isCased (c : Char) : Bool := cased.any (·.contains c.toNat)

def isCaseIgnorable (c : Char) : Bool := caseIgnorable.any (·.contains c.toNat)

/-- The lower case form of a character where its neighbours do not matter. -/
def lowerOf (c : Char) : List Char :=
  if c = 'İ' then ['i', '\u0307']
  else [((caseRuns.findSome? (·.lower? c.toNat)).map Char.ofNat).getD c]

/-- Whether the first character that counts has case. -/
def startsCased (cs : List Char) : Bool :=
  match cs.dropWhile isCaseIgnorable with
  | c :: _ => isCased c
  | [] => false

/-- The lower case form of a text; `before` stands in front of it, last character first. -/
def lowerFrom (before : List Char) : List Char → List Char
  | [] => []
  | c :: r =>
      (if c = 'Σ' then [if startsCased before && !startsCased r then 'ς' else 'σ']
        else lowerOf c) ++ lowerFrom (c :: before) r

/-- The text in small letters. -/
def lowercase (s : String) : String := String.ofList (lowerFrom [] s.toList)

end MetaAttack.Text
