import MetaAttack.Proofs.Scanning

/-!
# How tokens are written

A text spells tokens when it is cut into pieces that hold these tokens and nothing else, whatever
stands behind it that does not go on with its last piece. Texts that spell tokens are joined one by
one, where each lets the next one follow. The names that a source holds are words that are not
reserved, so each of them spells itself.
-/

namespace MetaAttack

open Piece

variable {P Q : List Char → Prop} {c : Char} {r cs ds : List Char} {ts us : List Token} {t : Token}

/-- Besides gaps the pieces are these tokens. -/
def Holds (qs : List Piece) (ts : List Token) : Prop :=
  (qs.map Piece.kind).filter (· ≠ .gap) = ts.map .token

theorem Holds.append {qs rs : List Piece} (h : Holds qs ts) (h' : Holds rs us) :
    Holds (qs ++ rs) (ts ++ us) := by
  rw [Holds, List.map_append, List.filter_append, h, h', List.map_append]

/-- In front of a text of the kind `P`, the characters are cut off as pieces that hold these
tokens. -/
def Spells (P : List Char → Prop) (cs : List Char) (ts : List Token) : Prop :=
  ∀ ⦃ds⦄, P ds → ∃ qs, pieces (cs ++ ds) = qs ++ pieces ds ∧ Holds qs ts

namespace Spells

theorem of_first (h : ∀ ds, P ds → first c (r ++ ds) = (⟨.token t, c :: r⟩, ds)) :
    Spells P (c :: r) [t] := by
  intro ds follows
  refine ⟨[⟨.token t, c :: r⟩], ?_, rfl⟩
  rw [List.cons_append, pieces, h ds follows]
  rfl

theorem of_gap (h : ∀ ds, P ds → first c (r ++ ds) = (⟨.gap, c :: r⟩, ds)) :
    Spells P (c :: r) [] := by
  intro ds follows
  refine ⟨[⟨.gap, c :: r⟩], ?_, rfl⟩
  rw [List.cons_append, pieces, h ds follows]
  rfl

/-- Two texts are spelled one behind the other where the first lets the second follow. -/
theorem append (h : Spells P cs ts) (h' : Spells Q ds us) (follows : ∀ es, Q es → P (ds ++ es)) :
    Spells Q (cs ++ ds) (ts ++ us) := by
  intro es behind
  obtain ⟨qs, first, holds⟩ := h (follows es behind)
  obtain ⟨rs, second, holds'⟩ := h' behind
  refine ⟨qs ++ rs, ?_, holds.append holds'⟩
  rw [List.append_assoc, first, second, List.append_assoc]

end Spells

theorem exists_lexemes_yields {qs : List Piece} (h : Holds qs ts) (p : Position) :
    ∃ us, lexemesOf (yields p qs) = .ok us ∧ us.map Lexeme.token = ts := by
  induction qs generalizing ts p with
  | nil =>
      obtain rfl := List.map_eq_nil_iff.mp (Eq.symm h)
      exact ⟨[], rfl, rfl⟩
  | cons q qs ih =>
      obtain ⟨kind, text⟩ := q
      rw [yields_cons]
      cases kind with
      | gap => exact ih h _
      | token t =>
          obtain ⟨t', ts, rfl, ht, more⟩ := List.map_eq_cons_iff.mp (Eq.symm h)
          cases ht
          obtain ⟨us, read, same⟩ := ih more.symm (p.advance text)
          refine ⟨⟨t, p.spanOf text⟩ :: us, ?_, congrArg (t :: ·) same⟩
          refine (lexemesOf_append [⟨t, p.spanOf text⟩] (yields (p.advance text) qs)).trans ?_
          rw [read]
          rfl
      | invalid =>
          obtain ⟨t', ts, rfl, ht, more⟩ := List.map_eq_cons_iff.mp (Eq.symm h)
          cases ht

/-- A source that spells tokens has lexemes with just these tokens. -/
theorem Spells.exists_lexemes {source : String} (h : Spells P source.toList ts) (ends : P []) :
    ∃ us, lexemes source = .ok us ∧ us.map Lexeme.token = ts := by
  obtain ⟨qs, cut, holds⟩ := h ends
  rw [List.append_nil, pieces, List.append_nil] at cut
  rw [lexemes, scan, cut]
  exact exists_lexemes_yields holds .origin

/-! ### Signs -/

/-- The text is at its end, or goes on with a blank. -/
inductive Separated : List Char → Prop
  | nil : Separated []
  | blank (ds : List Char) : Separated (' ' :: ds)

/-- A sign at the end of a text, or with a blank behind it, is cut off whole. -/
theorem Sign.spells_separated (s : Sign) : Spells Separated s.chars [.sign s] := by
  cases s <;> exact .of_first (by rintro _ (_ | _) <;> rfl)

/-- The signs of an expression that no other sign goes on from. -/
def Sign.closed : List Sign := [lparen, rparen, lbracket, rbracket, star]

/-- A sign that no other sign goes on from is cut off whatever follows. -/
theorem Sign.spells {s : Sign} (h : s ∈ closed) : Spells P s.chars [.sign s] := by
  simp only [closed, List.mem_cons, List.not_mem_nil, or_false] at h
  rcases h with rfl | rfl | rfl | rfl | rfl <;> exact .of_first fun _ _ => rfl

/-- A dot is cut off where it is the last in a row. -/
theorem Sign.spells_dot : Spells (fun ds => ds.head? ≠ some '.') dot.chars [.sign .dot] := by
  refine .of_first fun ds single => ?_
  cases ds with
  | nil => rfl
  | cons d ds =>
      have other : ('.' == d) = false :=
        beq_eq_false_iff_ne.mpr fun h => single (congrArg some h.symm)
      have only : leading? ('.' :: d :: ds) = some .dot := by
        simp [leading?, longestFirst, chars, List.isPrefixOf, other]
      change signOrInvalid '.' (d :: ds) = _
      rw [signOrInvalid, only]
      rfl

/-! ### Names -/

/-- The text is a word that is not reserved. -/
structure IsName (name : String) : Prop where
  word : ∃ c r, name.toList = c :: r ∧ isWordStart c ∧ ∀ d ∈ r, isWordPart d
  free : Keyword.ofChars? name.toList = none

/-- The text does not start with a letter, a digit or an underscore. -/
def WordEnds (ds : List Char) : Prop := ∀ d ∈ ds.head?, isWordPart d = false

theorem wordEnds_sign (s : Sign) (ds : List Char) : WordEnds (s.chars ++ ds) := by
  cases s <;> rintro d ⟨⟩ <;> rfl

theorem wordEnds_blank (ds : List Char) : WordEnds (' ' :: ds) := by
  rintro d ⟨⟩
  rfl

namespace Spells

variable {s : Sign}

theorem inFront (hs : s ∈ Sign.closed) (h : Spells P ds us) :
    Spells P (s.chars ++ ds) (.sign s :: us) :=
  (Sign.spells (P := fun _ => True) hs).append h fun _ _ => trivial

theorem behind (h : Spells WordEnds cs ts) (hs : s ∈ Sign.closed) :
    Spells P (cs ++ s.chars) (ts ++ [.sign s]) :=
  h.append (Sign.spells hs) fun _ _ => wordEnds_sign s _

theorem blank (h : Spells P ds us) : Spells P (' ' :: ds) us :=
  (of_gap (P := fun _ => True) (r := []) fun _ _ => rfl).append h fun _ _ => trivial

/-- A sign with blanks around it may stand between any two texts. -/
theorem between (s : Sign) (h : Spells WordEnds cs ts) (h' : Spells P ds us) :
    Spells P (cs ++ ' ' :: (s.chars ++ ' ' :: ds)) (ts ++ .sign s :: us) :=
  h.append ((Sign.spells_separated s).append h'.blank fun _ _ => .blank _).blank
    fun _ _ => wordEnds_blank _

end Spells

theorem takeWhile_of_ends {p : Char → Bool} (within : ∀ d ∈ r, p d)
    (ends : ∀ d ∈ ds.head?, p d = false) : (r ++ ds).takeWhile p = r := by
  have none : ds.takeWhile p = [] := by
    cases ds with
    | nil => rfl
    | cons d ds => rw [List.takeWhile_cons_of_neg (by simp [ends d rfl])]
  rw [List.takeWhile_append_of_pos within, none, List.append_nil]

theorem dropWhile_of_ends {p : Char → Bool} (within : ∀ d ∈ r, p d)
    (ends : ∀ d ∈ ds.head?, p d = false) : (r ++ ds).dropWhile p = ds := by
  rw [List.dropWhile_append_of_pos within]
  cases ds with
  | nil => rfl
  | cons d ds => rw [List.dropWhile_cons_of_neg (by simp [ends d rfl])]

/-- A character with a property that no blank has is no blank. -/
theorem isBlank_of_all {p : Char → Bool} (others : [' ', '\t', '\r', '\n', '\x0c'].all (!p ·))
    (h : p c) : isBlank c = false := by
  apply Bool.eq_false_iff.mpr
  intro blank
  have listed : c ∈ [' ', '\t', '\r', '\n', '\x0c'] := by
    simpa [isBlank, or_assoc] using blank
  have other := List.all_eq_true.mp others c listed
  simp [h] at other

theorem isBlank_of_isWordStart (h : isWordStart c) : isBlank c = false := isBlank_of_all rfl h

theorem isBlank_of_isDigit (h : c.isDigit) : isBlank c = false := isBlank_of_all rfl h

theorem isDigit_of_isWordStart (h : isWordStart c) : c.isDigit = false := by
  rw [Bool.eq_false_iff]
  intro digit
  rw [isWordStart, Bool.or_eq_true, decide_eq_true_eq] at h
  rcases h with letter | rfl
  · have below : c.val ≤ '9'.val := of_decide_eq_true (Bool.and_eq_true_iff.mp digit).2
    rcases Bool.or_eq_true_iff.mp letter with upper | lower
    · have above : 'A'.val ≤ c.val := (of_decide_eq_true upper).1
      exact absurd (UInt32.le_trans above below) (by decide)
    · have above : 'a'.val ≤ c.val := of_decide_eq_true (Bool.and_eq_true_iff.mp lower).1
      exact absurd (UInt32.le_trans above below) (by decide)
  · cases digit

/-- A word is cut off whole. -/
theorem spells_word (start : isWordStart c) (parts : ∀ d ∈ r, isWordPart d) :
    Spells WordEnds (c :: r) [wordToken (c :: r)] := by
  refine Spells.of_first fun ds ends => ?_
  rw [first.eq_def, if_neg (by simp [isBlank_of_isWordStart start]),
    if_neg (by simp [isDigit_of_isWordStart start]), if_pos start, run,
    takeWhile_of_ends parts ends, dropWhile_of_ends parts ends]

theorem IsName.spells {name : String} (h : IsName name) :
    Spells WordEnds name.toList [.ident name] := by
  obtain ⟨c, r, text, start, parts⟩ := h.word
  have token : wordToken (c :: r) = .ident name := by
    rw [wordToken, ← text, h.free, String.ofList_toList]
  rw [text, ← token]
  exact spells_word start parts

theorem isName_of_wordToken {name : String} (start : isWordStart c) (parts : ∀ d ∈ r, isWordPart d)
    (h : wordToken (c :: r) = .ident name) : IsName name := by
  rw [wordToken] at h
  split at h
  · cases h
  · next free =>
    cases h
    exact ⟨⟨c, r, String.toList_ofList, start, parts⟩, by rwa [String.toList_ofList]⟩

/-- The first character of a token tells what it is: a number, a word, a string or a sign. -/
theorem token_of_first {t : Token} (h : (first c r).1.kind = .token t) :
    (c.isDigit ∧ t = .integer (.ofList (c :: r.takeWhile Char.isDigit))) ∨
      (isWordStart c ∧ t = wordToken (c :: r.takeWhile isWordPart)) ∨
      (c = '"' ∧ (stringBody r).closed = true ∧ t = .string (.ofList (stringBody r).value)) ∨
      ∃ s, t = .sign s := by
  revert h
  fun_cases first c r with
  | case1 c r blank =>
      intro h
      cases h
  | case2 c r noBlank digit =>
      intro h
      exact .inl ⟨digit, (PieceKind.token.inj h).symm⟩
  | case3 c r noBlank noDigit word =>
      intro h
      exact .inr (.inl ⟨word, (PieceKind.token.inj h).symm⟩)
  | case4 r body noBlank noDigit noWord =>
      intro h
      cases closed : (stringBody r).closed with
      | false => simp [body, closed] at h
      | true =>
          simp only [body, closed, if_true, PieceKind.token.injEq] at h
          exact .inr (.inr (.inl ⟨rfl, rfl, h.symm⟩))
  | case5 s =>
      intro h
      cases h
  | case6 s inside rest closed =>
      intro h
      cases h
  | case7 s unclosed =>
      intro h
      cases h
  | case8 c r noBlank noDigit noWord noQuote noLine noBlock =>
      intro h
      rw [signOrInvalid] at h
      split at h
      · next s _ => exact .inr (.inr (.inr ⟨s, (PieceKind.token.inj h).symm⟩))
      · cases h

/-- A name that is cut off a text is one. -/
theorem isName_of_first {name : String} (h : (first c r).1.kind = .token (.ident name)) :
    IsName name := by
  rcases token_of_first h with ⟨_, h⟩ | ⟨word, h⟩ | ⟨-, -, h⟩ | ⟨_, h⟩
  · cases h
  · exact isName_of_wordToken word (fun d hd => List.mem_takeWhile_imp hd) h.symm
  · cases h
  · cases h

/-- Each piece of a text is the first one of what stands there. -/
theorem exists_first_of_mem_pieces {q : Piece} (hq : q ∈ pieces cs) :
    ∃ c r, (first c r).1 = q := by
  induction cs using pieces.induct with
  | case1 =>
      rw [pieces] at hq
      cases hq
  | case2 c r ih =>
      rw [pieces] at hq
      rcases List.mem_cons.mp hq with rfl | hq
      · exact ⟨c, r, rfl⟩
      · exact ih hq

theorem exists_mem_of_mem_place {p : Position} {qs : List Piece} {x : PieceKind × Span}
    (h : x ∈ place p qs) : ∃ q ∈ qs, q.kind = x.1 := by
  induction qs generalizing p with
  | nil => cases h
  | cons q qs ih =>
      rw [place] at h
      rcases List.mem_cons.mp h with rfl | h
      · exact ⟨q, List.mem_cons_self, rfl⟩
      · obtain ⟨q', hq', kind⟩ := ih h
        exact ⟨q', List.mem_cons_of_mem q hq', kind⟩

/-- Each lexeme of a source was cut off a text. -/
theorem exists_first_of_lexemes {source : String} {ls : List Lexeme} {l : Lexeme}
    (lexed : lexemes source = .ok ls) (h : l ∈ ls) :
    ∃ c r, (first c r).1.kind = .token l.token := by
  obtain ⟨⟨kind, s⟩, placed, found⟩ := List.mem_filterMap.mp (mem_scan_of_lexemes lexed h)
  obtain ⟨q, hq, rfl⟩ := exists_mem_of_mem_place placed
  obtain ⟨c, r, rfl⟩ := exists_first_of_mem_pieces hq
  refine ⟨c, r, ?_⟩
  cases kind : (first c r).1.kind with
  | token t =>
      rw [kind] at found
      cases found
      rfl
  | gap | invalid =>
      rw [kind] at found
      cases found

/-- The names among the lexemes of a source are words that are not reserved. -/
theorem isName_of_lexemes {source name : String} {ls : List Lexeme} {s : Span}
    (lexed : lexemes source = .ok ls) (h : ⟨.ident name, s⟩ ∈ ls) : IsName name := by
  obtain ⟨c, r, name⟩ := exists_first_of_lexemes lexed h
  exact isName_of_first name

end MetaAttack
