import MetaAttack.Proofs.Literals

/-!
# Tokens written out again

Written as messages show them, with a blank between any two, the tokens of a source make a source of
the same tokens. A sign may be the beginning of a longer one and a reserved word that of a name, but
none of them goes on over a blank. Only strings need care: they are shown without backslashes, so
they are read back where they have no quote and no backslash in them.
-/

namespace MetaAttack

open Piece

variable {c : Char} {r cs : List Char} {P Q : List Char → Prop} {t : Token} {ts : List Token}

/-- A token that is read back from the text that shows it. -/
inductive Token.Legible : Token → Prop
  | keyword (k : Keyword) : Legible (.keyword k)
  | sign (s : Sign) : Legible (.sign s)
  | integer {digits : String} (nonempty : digits.toList ≠ [])
      (all : ∀ d ∈ digits.toList, d.isDigit) : Legible (.integer digits)
  | string {value : String} (quotes : '"' ∉ value.toList) (backslashes : '\\' ∉ value.toList) :
      Legible (.string value)
  | ident {name : String} (word : IsName name) : Legible (.ident name)

/-- The tokens as messages show them, with a blank between any two. -/
def Token.spaced (ts : List Token) : String := " ".intercalate (ts.map Token.text)

namespace Spells

theorem nil : Spells P [] [] := fun _ _ => ⟨[], rfl, rfl⟩

theorem mono (h : Spells P cs ts) (narrower : ∀ ds, Q ds → P ds) : Spells Q cs ts :=
  fun ds follows => h (narrower ds follows)

end Spells

theorem Separated.ends {ds : List Char} {p : Char → Bool} (h : Separated ds)
    (blank : p ' ' = false) : ∀ d ∈ ds.head?, p d = false := by
  cases h with
  | nil => rintro d ⟨⟩
  | blank ds =>
      rintro d ⟨⟩
      exact blank

/-! ### One token -/

theorem Keyword.spells (k : Keyword) : Spells WordEnds k.chars [.keyword k] := by
  cases k <;> exact spells_word rfl (List.all_eq_true.mp rfl)

theorem spells_integer (digit : c.isDigit) (all : ∀ d ∈ r, d.isDigit) :
    Spells Separated (c :: r) [.integer (.ofList (c :: r))] := by
  apply Spells.of_first
  intro ds separated
  have ends : ∀ d ∈ ds.head?, d.isDigit = false := separated.ends rfl
  rw [first.eq_def, if_neg (by simp [isBlank_of_isDigit digit]), if_pos digit, run,
    takeWhile_of_ends all ends, dropWhile_of_ends all ends]

theorem Literal.resolve_of_plain (backslashes : '\\' ∉ cs) : resolve cs = cs := by
  induction cs with
  | nil => rfl
  | cons c cs ih =>
      obtain ⟨noBackslash, rest⟩ := not_or.mp (mt List.mem_cons.mpr backslashes)
      calc resolve (c :: cs) = c :: resolve cs := resolve_plain (Ne.symm noBackslash) cs
        _ = c :: cs := congrArg (c :: ·) (ih rest)

/-- Without quotes and backslashes, a text between quotes stands for itself. -/
theorem spells_string {value : String} (quotes : '"' ∉ value.toList)
    (backslashes : '\\' ∉ value.toList) :
    Spells P ('"' :: (value.toList ++ ['"'])) [.string value] := by
  apply Spells.of_first
  intro ds _
  have units := Literal.escaped_of_plain quotes backslashes
  have cut := units.first ds
  rwa [Literal.resolve_of_plain backslashes, String.ofList_toList, ← List.singleton_append,
    ← List.append_assoc] at cut

/-- Each legible token is spelled by the text that shows it, up to a blank. -/
theorem Token.Legible.spells (h : t.Legible) : Spells Separated t.text.toList [t] := by
  cases h with
  | keyword k =>
      rw [Token.text, String.toList_ofList]
      exact k.spells.mono fun _ separated => separated.ends rfl
  | sign s =>
      rw [Token.text, String.toList_ofList]
      exact s.spells_separated
  | @integer digits nonempty all =>
      obtain ⟨c, r, text⟩ := List.exists_cons_of_ne_nil nonempty
      rw [text] at all
      obtain ⟨digit, more⟩ := List.forall_mem_cons.mp all
      have same : digits = .ofList (c :: r) := by
        rw [← text, String.ofList_toList]
      rw [Token.text, text, same]
      exact spells_integer digit more
  | @string value quotes backslashes =>
      have text : (Token.string value).text.toList = '"' :: (value.toList ++ ['"']) := by
        simp [Token.text]
      rw [text]
      exact spells_string quotes backslashes
  | ident word => exact word.spells.mono fun _ separated => separated.ends rfl

/-! ### The tokens of a source -/

theorem legible_wordToken (start : isWordStart c) (parts : ∀ d ∈ r, isWordPart d) :
    (wordToken (c :: r)).Legible := by
  cases h : wordToken (c :: r) with
  | keyword k => exact .keyword k
  | ident name => exact .ident (isName_of_wordToken start parts h)
  | sign _ | integer _ | string _ =>
      rw [wordToken] at h
      split at h <;> cases h

/-- What is cut off a text is legible, strings with a quote or a backslash apart. -/
theorem legible_of_first (h : (first c r).1.kind = .token t)
    (plain : ∀ s, t = .string s → '"' ∉ s.toList ∧ '\\' ∉ s.toList) : t.Legible := by
  rcases token_of_first h with ⟨digit, rfl⟩ | ⟨word, rfl⟩ | ⟨-, -, rfl⟩ | ⟨s, rfl⟩
  · apply Token.Legible.integer
    · simp
    · intro d hd
      rw [String.toList_ofList] at hd
      rcases List.mem_cons.mp hd with rfl | hd
      · exact digit
      · exact List.mem_takeWhile_imp hd
  · exact legible_wordToken word fun d hd => List.mem_takeWhile_imp hd
  · obtain ⟨quotes, backslashes⟩ := plain _ rfl
    exact .string quotes backslashes
  · exact .sign s

/-- Legible tokens are spelled by their texts with blanks between them. -/
theorem spells_spaced (legible : ∀ t ∈ ts, t.Legible) :
    Spells Separated (Token.spaced ts).toList ts := by
  induction ts with
  | nil => exact .nil
  | cons t ts ih =>
      obtain ⟨first, others⟩ := List.forall_mem_cons.mp legible
      cases ts with
      | nil => exact first.spells
      | cons u us =>
          have text : (Token.spaced (t :: u :: us)).toList =
              t.text.toList ++ ' ' :: (Token.spaced (u :: us)).toList := by
            simp [Token.spaced, String.intercalate_cons_cons]
          rw [text]
          exact first.spells.append (ih others).blank fun _ _ => .blank _

/-- Legible tokens are read back from their texts with blanks between them. -/
theorem exists_lexemes_spaced (legible : ∀ t ∈ ts, t.Legible) :
    ∃ us, lexemes (Token.spaced ts) = .ok us ∧ us.map Lexeme.token = ts :=
  (spells_spaced legible).exists_lexemes .nil

/-- The tokens of a source are read back from their texts with blanks between them, unless one of
them is a string with a quote or a backslash in it. -/
theorem lexemes_spaced {source : String} {ls : List Lexeme} (lexed : lexemes source = .ok ls)
    (plain : ∀ l ∈ ls, ∀ s, l.token = .string s → '"' ∉ s.toList ∧ '\\' ∉ s.toList) :
    ∃ us, lexemes (Token.spaced (ls.map Lexeme.token)) = .ok us ∧
      us.map Lexeme.token = ls.map Lexeme.token := by
  apply exists_lexemes_spaced
  intro t ht
  obtain ⟨l, hl, rfl⟩ := List.mem_map.mp ht
  obtain ⟨c, r, first⟩ := exists_first_of_lexemes lexed hl
  exact legible_of_first first (plain l hl)

/-- Tokens without blanks between them, and a string with the beginning of a comment in it. -/
theorem lexemes_spaced_close :
    ∃ ls, lexemes "lets let-->-/\\/7..x/**//\"é //\n\"" = .ok ls ∧
      ls.map Lexeme.token =
        [.ident "lets", .keyword .binding, .sign .rightArm, .sign .minus, .sign .intersection,
          .sign .slash, .integer "7", .sign .dotDot, .ident "x", .sign .slash,
          .string "é //\n"] ∧
      ∃ us, lexemes "lets let --> - /\\ / 7 .. x / \"é //\n\"" = .ok us ∧
        us.map Lexeme.token = ls.map Lexeme.token := by
  have lexed : lexemes "lets let-->-/\\/7..x/**//\"é //\n\"" =
      .ok [⟨.ident "lets", ⟨0, 4, 1⟩⟩, ⟨.keyword .binding, ⟨5, 8, 1⟩⟩,
        ⟨.sign .rightArm, ⟨8, 11, 1⟩⟩, ⟨.sign .minus, ⟨11, 12, 1⟩⟩,
        ⟨.sign .intersection, ⟨12, 14, 1⟩⟩, ⟨.sign .slash, ⟨14, 15, 1⟩⟩,
        ⟨.integer "7", ⟨15, 16, 1⟩⟩, ⟨.sign .dotDot, ⟨16, 18, 1⟩⟩, ⟨.ident "x", ⟨18, 19, 1⟩⟩,
        ⟨.sign .slash, ⟨23, 24, 1⟩⟩, ⟨.string "é //\n", ⟨24, 32, 1⟩⟩] := by
    decide +kernel
  have read := lexemes_spaced lexed (by simp)
  exact ⟨_, lexed, rfl, read⟩

end MetaAttack
