import MetaAttack.Token

/-!
# Pieces of a source

A source is cut into pieces, each a token, a gap (one blank character or one comment) or a stretch
that starts no token. Cutting is by longest match and loses nothing: the texts of the pieces, one
after the other, are the source (`pieces_text`), and no piece is empty (`first_text_ne_nil`).
-/

namespace MetaAttack

/-- What a piece of source is. -/
inductive PieceKind
  | gap
  | token (token : Token)
  | invalid
deriving DecidableEq, Repr

/-- A stretch of source characters that belong together. -/
structure Piece where
  kind : PieceKind
  text : List Char
deriving DecidableEq, Repr

namespace Piece

/-- The five blank characters. -/
def isBlank (c : Char) : Bool :=
  c = ' ' || c = '\t' || c = '\r' || c = '\n' || c = '\x0c'

/-- Letters are the ASCII letters; names in the language have no others. -/
def isWordStart (c : Char) : Bool := c.isAlpha || c = '_'

def isWordPart (c : Char) : Bool := c.isAlphanum || c = '_'

/-- Splits a text behind the first end of a block comment. -/
def closeComment : List Char → Option (List Char × List Char)
  | '*' :: '/' :: r => some (['*', '/'], r)
  | c :: r => (closeComment r).map fun (inside, rest) => (c :: inside, rest)
  | [] => none

/-- The character that a backslash before `c` stands for. -/
def unescape (c : Char) : Char :=
  if c = 'n' then '\n' else if c = 't' then '\t' else c

/-- The part of a string literal behind its opening quote. -/
structure StringBody where
  /-- The characters as written, with the closing quote if there is one. -/
  text : List Char
  /-- The characters that the literal stands for. -/
  value : List Char
  closed : Bool
  rest : List Char

/-- Reads units (a character, or a backslash and a character other than a line feed) up to the
closing quote, or as far as units go. -/
def stringBody : List Char → StringBody
  | [] => ⟨[], [], false, []⟩
  | '"' :: r => ⟨['"'], [], true, r⟩
  | ['\\'] => ⟨[], [], false, ['\\']⟩
  | '\\' :: c :: r =>
      if c = '\n' then ⟨[], [], false, '\\' :: c :: r⟩
      else
        let b := stringBody r
        ⟨'\\' :: c :: b.text, unescape c :: b.value, b.closed, b.rest⟩
  | c :: r =>
      let b := stringBody r
      ⟨c :: b.text, c :: b.value, b.closed, b.rest⟩

/-- The token that a whole word is. -/
def wordToken (word : List Char) : Token :=
  match Keyword.ofChars? word with
  | some k => .keyword k
  | none => .ident (String.ofList word)

/-- A piece that goes on over every character of `r` with the property `p`. -/
def run (kind : List Char → PieceKind) (p : Char → Bool) (c : Char) (r : List Char) :
    Piece × List Char :=
  let text := c :: r.takeWhile p
  (⟨kind text, text⟩, r.dropWhile p)

/-- The piece that is the longest sign at the start of the text, or its first character where it
starts with no sign. -/
def signOrInvalid (c : Char) (r : List Char) : Piece × List Char :=
  match Sign.leading? (c :: r) with
  | some s => (⟨.token (.sign s), s.chars⟩, (c :: r).drop s.chars.length)
  | none => (⟨.invalid, [c]⟩, r)

/-- The first piece of the text `c :: r`, and the text behind it. -/
def first (c : Char) (r : List Char) : Piece × List Char :=
  if isBlank c then (⟨.gap, [c]⟩, r)
  else if c.isDigit then run (fun ds => .token (.integer (String.ofList ds))) Char.isDigit c r
  else if isWordStart c then run (fun w => .token (wordToken w)) isWordPart c r
  else if c = '"' then
    let b := stringBody r
    (⟨if b.closed then .token (.string (String.ofList b.value)) else .invalid, c :: b.text⟩, b.rest)
  else
    match c, r with
    | '/', '/' :: s =>
        (⟨.gap, '/' :: '/' :: s.takeWhile (· ≠ '\n')⟩, s.dropWhile (· ≠ '\n'))
    | '/', '*' :: s =>
        match closeComment s with
        | some (inside, rest) => (⟨.gap, '/' :: '*' :: inside⟩, rest)
        | none => (⟨.invalid, '/' :: '*' :: s⟩, [])
    | _, _ => signOrInvalid c r

theorem closeComment_append {cs inside rest : List Char}
    (h : closeComment cs = some (inside, rest)) : inside ++ rest = cs := by
  fun_induction closeComment cs generalizing inside rest with
  | case1 r => grind
  | case2 c r _ ih =>
      obtain ⟨p, hp, he⟩ := Option.map_eq_some_iff.1 h
      have := ih hp
      grind
  | case3 => simp at h

theorem stringBody_append (cs : List Char) : (stringBody cs).text ++ (stringBody cs).rest = cs := by
  fun_induction stringBody cs with
  | case1 => rfl
  | case2 => rfl
  | case3 => rfl
  | case4 => simp
  | case5 c r _ b ih => simpa [b] using ih
  | case6 c r b _ _ _ ih => simpa [b] using ih

theorem leading?_isPrefixOf {cs : List Char} {s : Sign} (h : Sign.leading? cs = some s) :
    s.chars <+: cs := by
  have := List.find?_some h
  exact List.isPrefixOf_iff_prefix.1 this

theorem signOrInvalid_append (c : Char) (r : List Char) :
    (signOrInvalid c r).1.text ++ (signOrInvalid c r).2 = c :: r := by
  unfold signOrInvalid
  split
  · next s h =>
    obtain ⟨t, ht⟩ := leading?_isPrefixOf h
    simp [← ht]
  · rfl

/-- Cutting off the first piece loses nothing. -/
theorem first_append (c : Char) (r : List Char) :
    (first c r).1.text ++ (first c r).2 = c :: r := by
  unfold first run
  split
  · rfl
  split
  · simp
  split
  · simp
  split
  · simp [stringBody_append]
  split
  · simp
  · split
    · next h => simp [closeComment_append h]
    · simp
  · exact signOrInvalid_append _ _

theorem first_text_ne_nil (c : Char) (r : List Char) : (first c r).1.text ≠ [] := by
  have sign : (signOrInvalid c r).1.text ≠ [] := by
    unfold signOrInvalid
    split
    · exact Sign.chars_ne_nil _
    · simp
  unfold first run
  split
  · simp
  split
  · simp
  split
  · simp
  split
  · simp
  split
  · simp
  · split <;> simp
  · exact sign

theorem first_rest_lt (c : Char) (r : List Char) : (first c r).2.length < (c :: r).length := by
  have h := congrArg List.length (first_append c r)
  have := List.length_pos_iff.2 (first_text_ne_nil c r)
  simp only [List.length_append] at h
  omega

end Piece

/-- All pieces of a text, in order. -/
def pieces : List Char → List Piece
  | [] => []
  | c :: r => (Piece.first c r).1 :: pieces (Piece.first c r).2
termination_by cs => cs.length
decreasing_by exact Piece.first_rest_lt c r

/-- The texts of the pieces make up the source. -/
theorem pieces_text (cs : List Char) : (pieces cs).flatMap Piece.text = cs := by
  fun_induction pieces cs with
  | case1 => rfl
  | case2 c r ih => simp [ih, Piece.first_append]

end MetaAttack
