import Mathlib.Algebra.Ring.Parity
import MetaAttack.Proofs.Slices

/-!
# String literals

Between its quotes a literal is made of units, each a character or a backslash with a character
behind it. Reading finds the end of a literal by the units, and a second pass over the same text
resolves its backslashes. Both pair the backslashes alike, from the left, so that a quote belongs to
the text if and only if the backslashes in front of it are odd in number. Every text can be written
as a literal, by a backslash in front of each of its quotes and backslashes, and is read back from
it.
-/

namespace MetaAttack

namespace Literal

variable {c d : Char} {p : Nat → Prop} {r cs ds inner inner' : List Char}

/-- The text with a backslash in front of each quote and each backslash. -/
def escape : List Char → List Char
  | [] => []
  | c :: cs => if c = '"' ∨ c = '\\' then '\\' :: c :: escape cs else c :: escape cs

/-- The literal for a text. -/
def quote (s : String) : String := "\"" ++ .ofList (escape s.toList) ++ "\""

/-- What a text between quotes stands for. A backslash at its end stands for itself. -/
def resolve : List Char → List Char
  | [] => []
  | ['\\'] => ['\\']
  | '\\' :: c :: r => Piece.unescape c :: resolve r
  | c :: r => c :: resolve r

/-- The number of backslashes in a row at the end of the text. -/
def backslashes (cs : List Char) : Nat := (cs.reverse.takeWhile (· = '\\')).length

/-- The text is made of units. -/
inductive Escaped : List Char → Prop
  | nil : Escaped []
  | plain {c : Char} {cs : List Char} (noQuote : c ≠ '"') (noBackslash : c ≠ '\\')
      (more : Escaped cs) : Escaped (c :: cs)
  | pair {c : Char} {cs : List Char} (noNewline : c ≠ '\n') (more : Escaped cs) :
      Escaped ('\\' :: c :: cs)

/-! ### Backslashes in a row -/

theorem backslashes_le (cs : List Char) : backslashes cs ≤ cs.length := by
  have most : backslashes cs ≤ cs.reverse.length := (List.takeWhile_prefix _).length_le
  rwa [List.length_reverse] at most

theorem backslashes_cons (c : Char) (cs : List Char) : backslashes (c :: cs) =
    if backslashes cs = cs.length ∧ c = '\\' then cs.length + 1 else backslashes cs := by
  rw [backslashes, List.reverse_cons, List.takeWhile_append, List.length_reverse]
  change (ite (backslashes cs = cs.length) _ _ : List Char).length = _
  by_cases full : backslashes cs = cs.length
  · by_cases same : c = '\\'
    · rw [if_pos full, if_pos ⟨full, same⟩, same]
      simp
    · rw [if_pos full, if_neg fun h => same h.2, full]
      simp [same]
  · rw [if_neg full, if_neg fun h => full h.1, backslashes]

/-- A character other than a backslash starts no row. -/
theorem backslashes_plain (noBackslash : c ≠ '\\') (cs : List Char) :
    backslashes (c :: cs) = backslashes cs := by
  rw [backslashes_cons, if_neg fun h => noBackslash h.2]

/-- A pair of a backslash and another character leaves the row behind it even or odd. -/
theorem even_backslashes_pair (c : Char) (cs : List Char) :
    Even (backslashes ('\\' :: c :: cs)) ↔ Even (backslashes cs) := by
  have most := backslashes_le cs
  have step := backslashes_cons c cs
  have step' := backslashes_cons '\\' (c :: cs)
  rw [List.length_cons] at step'
  by_cases full : backslashes cs = cs.length ∧ c = '\\'
  · rw [if_pos full] at step
    rw [if_pos ⟨step, rfl⟩] at step'
    rw [step', full.1, add_assoc]
    exact Nat.even_add.trans (iff_true_right even_two)
  · rw [if_neg full] at step
    rw [if_neg (by omega), step] at step'
    rw [step']

/-- In front of each `d` in the text, the length of the row of backslashes has the property. -/
def RowsBefore (d : Char) (p : Nat → Prop) (cs : List Char) : Prop :=
  ∀ front behind, cs = front ++ d :: behind → p (backslashes front)

theorem rowsBefore_nil : RowsBefore d p [] := by
  intro front behind h
  exact absurd h.symm (by simp)

theorem rowsBefore_plain (noBackslash : c ≠ '\\') :
    RowsBefore d p (c :: cs) ↔ (c = d → p 0) ∧ RowsBefore d p cs := by
  constructor
  · refine fun h => ⟨?_, fun front behind text => ?_⟩
    · rintro rfl
      exact h [] cs rfl
    · rw [← backslashes_plain noBackslash]
      exact h (c :: front) behind (congrArg (c :: ·) text)
  · rintro ⟨here, later⟩ front behind text
    cases front with
    | nil => exact here (List.cons.inj text).1
    | cons c' front =>
        obtain ⟨rfl, more⟩ := List.cons.inj text
        rw [backslashes_plain noBackslash]
        exact later front behind more

theorem rowsBefore_pair (noBackslash : d ≠ '\\')
    (respects : ∀ cs, p (backslashes ('\\' :: c :: cs)) ↔ p (backslashes cs)) :
    RowsBefore d p ('\\' :: c :: cs) ↔ (c = d → p 1) ∧ RowsBefore d p cs := by
  constructor
  · refine fun h => ⟨?_, fun front behind text => ?_⟩
    · rintro rfl
      exact h ['\\'] cs rfl
    · rw [← respects]
      exact h ('\\' :: c :: front) behind (congrArg ('\\' :: c :: ·) text)
  · rintro ⟨here, later⟩ front behind text
    rcases front with _ | ⟨b, _ | ⟨c', front⟩⟩
    · exact absurd (List.cons.inj text).1.symm noBackslash
    · obtain ⟨rfl, more⟩ := List.cons.inj text
      exact here (List.cons.inj more).1
    · obtain ⟨rfl, tail⟩ := List.cons.inj text
      obtain ⟨rfl, more⟩ := List.cons.inj tail
      exact (respects front).mpr (later front behind more)

/-! ### Units -/

theorem resolve_plain (noBackslash : c ≠ '\\') (r : List Char) :
    resolve (c :: r) = c :: resolve r := by
  rw [resolve]
  · exact fun h _ => noBackslash h
  · exact fun _ _ h _ => noBackslash h

theorem stringBody_plain (noQuote : c ≠ '"') (noBackslash : c ≠ '\\') (r : List Char) :
    Piece.stringBody (c :: r) =
      let b := Piece.stringBody r
      ⟨c :: b.text, c :: b.value, b.closed, b.rest⟩ := by
  rw [Piece.stringBody]
  · exact noQuote
  · exact fun h _ => noBackslash h
  · exact fun _ _ h _ => noBackslash h

/-- Units up to a quote are read up to it, and their value is what the second pass makes of
them. -/
theorem Escaped.stringBody (h : Escaped inner) (ds : List Char) :
    Piece.stringBody (inner ++ '"' :: ds) = ⟨inner ++ ['"'], resolve inner, true, ds⟩ := by
  induction h with
  | nil => rfl
  | plain noQuote noBackslash more ih =>
      rw [List.cons_append, stringBody_plain noQuote noBackslash, ih, resolve_plain noBackslash]
      rfl
  | pair noNewline more ih =>
      rw [List.cons_append, List.cons_append, Piece.stringBody, if_neg noNewline, ih, resolve]
      rfl

/-- A literal that is closed has units up to its closing quote. -/
theorem exists_escaped (closed : (Piece.stringBody cs).closed = true) :
    ∃ inner, Escaped inner ∧ cs = inner ++ '"' :: (Piece.stringBody cs).rest := by
  induction cs using Piece.stringBody.induct with
  | case1 => cases closed
  | case2 r => exact ⟨[], .nil, rfl⟩
  | case3 => cases closed
  | case4 r =>
      rw [Piece.stringBody, if_pos rfl] at closed
      cases closed
  | case5 c r newline ih =>
      rw [Piece.stringBody, if_neg newline] at closed ⊢
      obtain ⟨inner, units, text⟩ := ih closed
      exact ⟨_, .pair newline units, congrArg ('\\' :: c :: ·) text⟩
  | case6 c r noQuote single escape ih =>
      have noBackslash : c ≠ '\\' := by
        rintro rfl
        cases r with
        | nil => exact single rfl rfl
        | cons d r => exact escape d r rfl rfl
      rw [stringBody_plain noQuote noBackslash] at closed ⊢
      obtain ⟨inner, units, text⟩ := ih closed
      exact ⟨_, .plain noQuote noBackslash units, congrArg (c :: ·) text⟩

theorem escaped_pair_iff : Escaped ('\\' :: c :: cs) ↔ c ≠ '\n' ∧ Escaped cs := by
  refine ⟨fun h => ?_, fun h => .pair h.1 h.2⟩
  cases h with
  | plain _ noBackslash _ => exact absurd rfl noBackslash
  | pair noNewline more => exact ⟨noNewline, more⟩

theorem escaped_plain_iff (noBackslash : c ≠ '\\') :
    Escaped (c :: cs) ↔ c ≠ '"' ∧ Escaped cs := by
  refine ⟨fun h => ?_, fun h => .plain h.1 noBackslash h.2⟩
  cases h with
  | plain noQuote _ more => exact ⟨noQuote, more⟩
  | pair => exact absurd rfl noBackslash

/-- The text is made of units if and only if the backslashes in front of each quote in it are odd in
number, and those in front of each line feed and at its end even. -/
theorem escaped_iff : Escaped inner ↔
    RowsBefore '"' Odd inner ∧ RowsBefore '\n' Even inner ∧ Even (backslashes inner) := by
  induction inner using resolve.induct with
  | case1 => exact iff_of_true .nil ⟨rowsBefore_nil, rowsBefore_nil, Even.zero⟩
  | case2 =>
      refine iff_of_false (fun h => ?_) fun h => absurd h.2.2 (by decide)
      cases h with
      | plain _ noBackslash _ => exact noBackslash rfl
  | case3 c r ih =>
      have odd (cs : List Char) :
          Odd (backslashes ('\\' :: c :: cs)) ↔ Odd (backslashes cs) := by
        rw [← Nat.not_even_iff_odd, even_backslashes_pair, Nat.not_even_iff_odd]
      have newline : (c = '\n' → Even 1) ↔ c ≠ '\n' := by simp
      rw [escaped_pair_iff, ih, rowsBefore_pair (by decide) odd,
        rowsBefore_pair (by decide) (even_backslashes_pair c), even_backslashes_pair, newline]
      have one : c = '"' → Odd 1 := fun _ => odd_one
      tauto
  | case4 c r single pair ih =>
      have noBackslash : c ≠ '\\' := by
        rintro rfl
        cases r with
        | nil => exact single rfl rfl
        | cons d r => exact pair d r rfl rfl
      have quote : (c = '"' → Odd 0) ↔ c ≠ '"' := by simp
      rw [escaped_plain_iff noBackslash, ih, rowsBefore_plain noBackslash,
        rowsBefore_plain noBackslash, backslashes_plain noBackslash, quote]
      have zero : c = '\n' → Even 0 := fun _ => Even.zero
      tauto

/-- Texts without quotes and backslashes are made of units. -/
theorem escaped_of_plain (quotes : '"' ∉ cs) (backslashes : '\\' ∉ cs) : Escaped cs := by
  induction cs with
  | nil => exact .nil
  | cons c cs ih =>
      rw [List.mem_cons, not_or] at quotes backslashes
      exact .plain (Ne.symm quotes.1) (Ne.symm backslashes.1) (ih quotes.2 backslashes.2)

theorem Escaped.append (h : Escaped cs) (h' : Escaped ds) : Escaped (cs ++ ds) := by
  induction h with
  | nil => exact h'
  | plain noQuote noBackslash _ ih => exact .plain noQuote noBackslash ih
  | pair noNewline _ ih => exact .pair noNewline ih

theorem Escaped.resolve_append (h : Escaped cs) (ds : List Char) :
    resolve (cs ++ ds) = resolve cs ++ resolve ds := by
  induction h with
  | nil => rfl
  | plain _ noBackslash _ ih =>
      rw [List.cons_append, resolve_plain noBackslash, resolve_plain noBackslash, ih,
        List.cons_append]
  | pair _ _ ih =>
      rw [List.cons_append, List.cons_append, resolve, resolve, ih, List.cons_append]

/-! ### Texts as literals -/

theorem escaped_escape (cs : List Char) : Escaped (escape cs) := by
  induction cs with
  | nil => exact .nil
  | cons c cs ih =>
      rw [escape]
      split
      · next special =>
        refine .pair ?_ ih
        rintro rfl
        exact absurd special (by decide)
      · next plain =>
        obtain ⟨noQuote, noBackslash⟩ := not_or.mp plain
        exact .plain noQuote noBackslash ih

theorem resolve_escape (cs : List Char) : resolve (escape cs) = cs := by
  induction cs with
  | nil => rfl
  | cons c cs ih =>
      rw [escape]
      split
      · next special =>
        rw [resolve, ih]
        rcases special with rfl | rfl <;> rfl
      · next plain => rw [resolve_plain fun h => plain (.inr h), ih]

/-! ### Literals in a source -/

theorem first_quote (r : List Char) : Piece.first '"' r =
    let b := Piece.stringBody r
    (⟨if b.closed then .token (.string (.ofList b.value)) else .invalid, '"' :: b.text⟩, b.rest) :=
  rfl

/-- Units between quotes are cut off as one string, whatever follows. -/
theorem Escaped.first (h : Escaped inner) (ds : List Char) :
    Piece.first '"' (inner ++ '"' :: ds) =
      (⟨.token (.string (.ofList (resolve inner))), '"' :: (inner ++ ['"'])⟩, ds) := by
  rw [first_quote, h.stringBody]
  rfl

theorem wordToken_ne_string (word : List Char) (s : String) :
    Piece.wordToken word ≠ .string s := by
  intro h
  rw [Piece.wordToken] at h
  split at h <;> cases h

/-- A string that is cut off has units between its quotes. -/
theorem exists_escaped_of_first {s : String}
    (h : (Piece.first c r).1.kind = .token (.string s)) :
    ∃ inner ds, Escaped inner ∧ c = '"' ∧ r = inner ++ '"' :: ds := by
  rcases token_of_first h with ⟨_, h⟩ | ⟨-, h⟩ | ⟨quote, closed, -⟩ | ⟨_, h⟩
  · cases h
  · exact absurd h.symm (wordToken_ne_string _ s)
  · obtain ⟨inner, units, text⟩ := exists_escaped closed
    exact ⟨inner, _, units, quote, text⟩
  · cases h

/-- A text of units between quotes is one string. -/
theorem Escaped.lexemes {inner : String} (h : Escaped inner.toList) :
    lexemes ("\"" ++ inner ++ "\"") =
      .ok [⟨.string (.ofList (resolve inner.toList)),
        ⟨0, ("\"" ++ inner ++ "\"").utf8ByteSize, 1⟩⟩] := by
  have text : ("\"" ++ inner ++ "\"").toList = '"' :: (inner.toList ++ ['"']) := by
    rw [String.toList_append, String.toList_append]
    rfl
  have size : (Position.origin.advance ('"' :: (inner.toList ++ ['"']))).offset =
      ("\"" ++ inner ++ "\"").utf8ByteSize := by
    rw [← byteSize_toList, text]
    exact Nat.zero_add _
  rw [MetaAttack.lexemes, scan, text, pieces, h.first, pieces, ← size]
  rfl

theorem kind_of_yields {p : Position} {q : Piece} {t : Token} {span : Span}
    (h : yields p [q] = [.lexeme ⟨t, span⟩]) : q.kind = .token t := by
  obtain ⟨kind, text⟩ := q
  cases kind with
  | token t =>
      cases h
      rfl
  | gap | invalid => cases h

theorem exists_first_of_pieces {q : Piece} {qs : List Piece} (h : pieces cs = q :: qs) :
    ∃ c r, cs = c :: r ∧ (Piece.first c r).1 = q := by
  cases cs with
  | nil =>
      rw [pieces] at h
      cases h
  | cons c r =>
      rw [pieces] at h
      exact ⟨c, r, rfl, (List.cons.inj h).1⟩

/-- A string in a source stands for the text of units between its quotes. -/
theorem exists_escaped_of_mem_scan {source s : String} {span : Span}
    (h : .lexeme ⟨.string s, span⟩ ∈ scan source) :
    ∃ inner : String, Escaped inner.toList ∧ span.Delimits source ("\"" ++ inner ++ "\"") ∧
      s = .ofList (resolve inner.toList) := by
  obtain ⟨xs, ys, scanned⟩ := List.append_of_mem h
  obtain ⟨ps, q, rs, cut, front, upTo, place⟩ := exists_pieces_of_yields scanned
  rw [yields_append, front] at upTo
  have kind : q.kind = .token (.string s) := kind_of_yields (List.append_cancel_left upTo)
  obtain ⟨c, r, behind, first⟩ := exists_first_of_pieces (pieces_behind cut)
  rw [← first] at kind place
  obtain ⟨inner, ds, units, rfl, rfl⟩ := exists_escaped_of_first kind
  rw [units.first] at kind place
  cases kind
  have whole : source.toList = ps.flatMap Piece.text ++ '"' :: (inner ++ '"' :: ds) := by
    rw [← behind, ← List.flatMap_append, ← cut, pieces_text]
  refine ⟨.ofList inner, ?_, ⟨.ofList (ps.flatMap Piece.text), .ofList ds, ?_, ?_, ?_⟩, ?_⟩
  · rwa [String.toList_ofList]
  · apply String.toList_inj.mp
    rw [whole]
    simp
  · rw [utf8ByteSize_ofList]
    exact (Nat.zero_add _).symm.trans (congrArg Span.start place).symm
  · rw [← byteSize_toList]
    refine Eq.trans ?_ (congrArg Span.stop place).symm
    rw [Position.spanOf, ← Position.advance_append]
    simp [Position.advance, Position.origin]
  · rw [String.toList_ofList]

/-- A text of units, and no other, is one string between quotes, with the value that its backslashes
are resolved to. -/
theorem lexemes_eq_string_iff {inner s : String} :
    lexemes ("\"" ++ inner ++ "\"") =
        .ok [⟨.string s, ⟨0, ("\"" ++ inner ++ "\"").utf8ByteSize, 1⟩⟩] ↔
      Escaped inner.toList ∧ s = .ofList (resolve inner.toList) := by
  constructor
  · intro lexed
    obtain ⟨inner', units, delimits, value⟩ :=
      exists_escaped_of_mem_scan (mem_scan_of_lexemes lexed List.mem_cons_self)
    have all : Span.Delimits ⟨0, ("\"" ++ inner ++ "\"").utf8ByteSize, 1⟩
        ("\"" ++ inner ++ "\"") ("\"" ++ inner ++ "\"") := ⟨"", "", by simp, rfl, by simp⟩
    have same := delimits.unique all
    rw [String.append_left_inj, String.append_right_inj] at same
    rw [← same]
    exact ⟨units, value⟩
  · rintro ⟨units, rfl⟩
    exact units.lexemes

/-! ### All texts -/

/-- Every text is read back from its literal. -/
theorem lexemes_quote (s : String) :
    lexemes (quote s) = .ok [⟨.string s, ⟨0, (quote s).utf8ByteSize, 1⟩⟩] := by
  refine lexemes_eq_string_iff.mpr ⟨?_, ?_⟩
  · rw [String.toList_ofList]
    exact escaped_escape s.toList
  · rw [String.toList_ofList, resolve_escape, String.ofList_toList]

/-- Literals carry every text. The literal of a text is one string, the text, over the whole of the
source. Whatever string a source holds, its own literal gives it again; in the source it stands
between two quotes, as what the second pass makes of the text between them, and the quote that ends
it is the first with an even number of backslashes in front of it. -/
theorem lexemes_quote_of_mem_scan :
    (∀ s, lexemes (quote s) = .ok [⟨.string s, ⟨0, (quote s).utf8ByteSize, 1⟩⟩]) ∧
    ∀ source s span, Scanned.lexeme ⟨.string s, span⟩ ∈ scan source →
      lexemes (quote s) = .ok [⟨.string s, ⟨0, (quote s).utf8ByteSize, 1⟩⟩] ∧
      ∃ inner : String, span.Delimits source ("\"" ++ inner ++ "\"") ∧
        RowsBefore '"' Odd inner.toList ∧ Even (backslashes inner.toList) ∧
        s = .ofList (resolve inner.toList) := by
  refine ⟨lexemes_quote, fun source s span h => ⟨lexemes_quote s, ?_⟩⟩
  obtain ⟨inner, units, delimits, value⟩ := exists_escaped_of_mem_scan h
  obtain ⟨quotes, -, atEnd⟩ := escaped_iff.mp units
  exact ⟨inner, delimits, quotes, atEnd, value⟩

/-- A literal with escaped quotes in it and an escaped backslash at its end. -/
theorem lexemes_quote_of_mem_scan_backslash :
    Scanned.lexeme ⟨.string "a\"b\\", ⟨5, 13, 1⟩⟩ ∈ scan "#id: \"a\\\"b\\\\\" // \"" ∧
      lexemes (quote "a\"b\\") = .ok [⟨.string "a\"b\\", ⟨0, 8, 1⟩⟩] := by
  have found : Scanned.lexeme ⟨.string "a\"b\\", ⟨5, 13, 1⟩⟩ ∈
      scan "#id: \"a\\\"b\\\\\" // \"" := by
    decide +kernel
  have size : (quote "a\"b\\").utf8ByteSize = 8 := by decide
  refine ⟨found, ?_⟩
  rw [(lexemes_quote_of_mem_scan.2 _ _ _ found).1, size]

end Literal

end MetaAttack
