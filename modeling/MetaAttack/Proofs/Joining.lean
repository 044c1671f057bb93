import Mathlib.Data.List.TakeWhile
import MetaAttack.Proofs.Relocation

/-!
# Joined sources

Two sources are joined with a line feed between them. No token holds a line feed but a string that
is closed, so a piece of the first source that is a token or a gap is cut alike where the second
source follows. The lexemes of the joined source are thus those of the first and, shifted behind it,
those of the second.
-/

namespace MetaAttack

variable {c : Char} {cs ds r : List Char}

/-! ### Runs and signs -/

namespace Piece

variable {p : Char → Bool}

/-- A run that stops at the end of a line does not see what comes behind it. -/
theorem takeWhile_append_newline (stop : p '\n' = false) (cs ds : List Char) :
    (cs ++ '\n' :: ds).takeWhile p = cs.takeWhile p := by
  induction cs with
  | nil => rw [List.nil_append, List.takeWhile_cons_of_neg (by simp [stop])]; rfl
  | cons c cs ih => rw [List.cons_append, List.takeWhile_cons, List.takeWhile_cons, ih]

theorem dropWhile_append_newline (stop : p '\n' = false) (cs ds : List Char) :
    (cs ++ '\n' :: ds).dropWhile p = cs.dropWhile p ++ '\n' :: ds := by
  induction cs with
  | nil => rw [List.nil_append, List.dropWhile_cons_of_neg (by simp [stop])]; rfl
  | cons c cs ih =>
      rw [List.cons_append, List.dropWhile_cons, List.dropWhile_cons, ih]
      split <;> rfl

/-- A piece that no line end goes on with is cut off alike, and the rest is longer. -/
theorem run_append_newline {kind : List Char → PieceKind} (stop : p '\n' = false) :
    run kind p c (r ++ '\n' :: ds) = ((run kind p c r).1, (run kind p c r).2 ++ '\n' :: ds) := by
  rw [run, takeWhile_append_newline stop, dropWhile_append_newline stop]
  rfl

theorem isPrefixOf_append_newline {xs : List Char} (h : '\n' ∉ xs) (cs ds : List Char) :
    xs.isPrefixOf (cs ++ '\n' :: ds) = xs.isPrefixOf cs := by
  induction xs generalizing cs with
  | nil => rfl
  | cons x xs ih =>
      rw [List.mem_cons, not_or] at h
      cases cs with
      | nil => simp [List.isPrefixOf, Ne.symm h.1]
      | cons c cs => rw [List.cons_append, List.isPrefixOf, List.isPrefixOf, ih h.2]

/-- No sign goes over the end of a line. -/
theorem newline_not_mem_sign (s : Sign) : '\n' ∉ s.chars := by
  cases s <;> decide

/-- Which sign comes first is decided within the line. -/
theorem leading?_append_newline (cs ds : List Char) :
    Sign.leading? (cs ++ '\n' :: ds) = Sign.leading? cs := by
  rw [Sign.leading?, Sign.leading?]
  congr 1
  funext s
  exact isPrefixOf_append_newline (newline_not_mem_sign s) cs ds

theorem signOrInvalid_append_newline :
    signOrInvalid c (r ++ '\n' :: ds) =
      ((signOrInvalid c r).1, (signOrInvalid c r).2 ++ '\n' :: ds) := by
  have same : Sign.leading? (c :: (r ++ '\n' :: ds)) = Sign.leading? (c :: r) :=
    leading?_append_newline (c :: r) ds
  rw [signOrInvalid, signOrInvalid, same]
  cases h : Sign.leading? (c :: r) with
  | none => rfl
  | some s =>
      have fits : s.chars.length ≤ (c :: r).length := (leading?_isPrefixOf h).length_le
      exact congrArg (Prod.mk _) (List.drop_append_of_le_length fits)

/-! ### Strings and comments -/

/-- A comment that is closed has at least its closing characters. -/
theorem inside_ne_nil {inside rest : List Char} (h : closeComment cs = some (inside, rest)) :
    inside ≠ [] := by
  rintro rfl
  rw [closeComment.eq_def] at h
  split at h
  · cases h
  · obtain ⟨_, _, same⟩ := Option.map_eq_some_iff.mp h
    cases same
  · cases h

/-- A block comment ends where it does whatever follows. -/
theorem closeComment_inside_append {inside rest : List Char}
    (h : closeComment cs = some (inside, rest)) (ds : List Char) :
    closeComment (inside ++ ds) = some (inside, ds) := by
  induction cs using closeComment.induct generalizing inside with
  | case1 r =>
      cases h
      rfl
  | case2 c r unclosed ih =>
      rw [closeComment] at h
      · obtain ⟨⟨inside', rest'⟩, hr, same⟩ := Option.map_eq_some_iff.mp h
        cases same
        rw [List.cons_append, closeComment, ih hr]
        · rfl
        · rintro s rfl hs
          cases inside' with
          | nil => exact inside_ne_nil hr rfl
          | cons d inside' =>
              cases hs
              exact unclosed _ rfl (closeComment_append hr).symm
      · exact unclosed
  | case3 => cases h

/-- What follows the end of a block comment does not change where it ends. -/
theorem closeComment_append_right {inside rest : List Char}
    (h : closeComment cs = some (inside, rest)) (ds : List Char) :
    closeComment (cs ++ ds) = some (inside, rest ++ ds) := by
  rw [← closeComment_append h, List.append_assoc]
  exact closeComment_inside_append h _

/-- The same part of a literal with more text behind it. -/
def StringBody.extend (b : StringBody) (ds : List Char) : StringBody :=
  ⟨b.text, b.value, b.closed, b.rest ++ ds⟩

/-- A string ends with its closing quote whatever follows. -/
theorem stringBody_text_append (closed : (stringBody cs).closed = true) (ds : List Char) :
    stringBody ((stringBody cs).text ++ ds) = { stringBody cs with rest := ds } := by
  induction cs using stringBody.induct with
  | case1 => cases closed
  | case2 r => rfl
  | case3 => cases closed
  | case4 r =>
      rw [stringBody, if_pos rfl] at closed
      cases closed
  | case5 c r newline ih =>
      rw [stringBody, if_neg newline] at closed
      rw [stringBody, if_neg newline, List.cons_append, List.cons_append, stringBody,
        if_neg newline, ih closed]
  | case6 c r quote single escape ih =>
      have plain : c ≠ '\\' := by
        rintro rfl
        cases r with
        | nil => exact single rfl rfl
        | cons d r => exact escape d r rfl rfl
      rw [stringBody] at closed
      · rw [stringBody]
        · rw [List.cons_append, stringBody, ih closed]
          · exact quote
          · exact fun h _ => plain h
          · exact fun _ _ h _ => plain h
        · exact quote
        · exact single
        · exact escape
      · exact quote
      · exact single
      · exact escape

/-- What follows the closing quote of a string does not belong to it. -/
theorem stringBody_append_right (closed : (stringBody cs).closed = true) (ds : List Char) :
    stringBody (cs ++ ds) = (stringBody cs).extend ds := by
  have split : cs ++ ds = (stringBody cs).text ++ ((stringBody cs).rest ++ ds) := by
    rw [← List.append_assoc, stringBody_append]
  rw [split, stringBody_text_append closed]
  rfl

/-! ### Pieces -/

/-- A comment up to the end of the line leaves that end over. -/
theorem first_line (s : List Char) :
    first '/' ('/' :: s) = (⟨.gap, '/' :: '/' :: s.takeWhile (· ≠ '\n')⟩, s.dropWhile (· ≠ '\n')) :=
  rfl

/-- A comment that is never closed takes everything and is invalid. -/
theorem first_block (s : List Char) :
    first '/' ('*' :: s) =
      match closeComment s with
      | some (inside, rest) => (⟨.gap, '/' :: '*' :: inside⟩, rest)
      | none => (⟨.invalid, '/' :: '*' :: s⟩, []) :=
  rfl

/-- A piece that is a token or a gap is cut alike where a line feed and more text follow. -/
theorem first_append_newline (valid : (first c r).1.kind ≠ .invalid) (ds : List Char) :
    first c (r ++ '\n' :: ds) = ((first c r).1, (first c r).2 ++ '\n' :: ds) := by
  fun_cases first c r with
  | case1 c r blank => rw [first.eq_def, if_pos blank]
  | case2 c r noBlank digit =>
      rw [first.eq_def, if_neg noBlank, if_pos digit]
      exact run_append_newline (by decide)
  | case3 c r noBlank noDigit word =>
      rw [first.eq_def, if_neg noBlank, if_neg noDigit, if_pos word]
      exact run_append_newline (by decide)
  | case4 r body noBlank noDigit noWord =>
      rw [first.eq_def, if_neg noBlank, if_neg noDigit, if_neg noWord, if_pos rfl] at valid
      have closed : (stringBody r).closed = true := by
        by_contra unclosed
        exact valid (if_neg unclosed)
      rw [first.eq_def, if_neg noBlank, if_neg noDigit, if_neg noWord, if_pos rfl,
        stringBody_append_right closed]
      rfl
  | case5 s =>
      rw [List.cons_append, first_line, takeWhile_append_newline (by decide),
        dropWhile_append_newline (by decide)]
  | case6 s inside rest closed =>
      rw [List.cons_append, first_block, closeComment_append_right closed]
  | case7 s unclosed =>
      rw [first_block, unclosed] at valid
      exact absurd rfl valid
  | case8 c r noBlank noDigit noWord noQuote noLine noBlock =>
      rw [first.eq_def, if_neg noBlank, if_neg noDigit, if_neg noWord, if_neg noQuote]
      -- A line feed does not make a comment of a slash at the end.
      split
      · next hs =>
        cases r with
        | nil => cases hs
        | cons d r =>
            cases hs
            exact (noLine r rfl rfl).elim
      · next hs =>
        cases r with
        | nil => cases hs
        | cons d r =>
            cases hs
            exact (noBlock r rfl rfl).elim
      · exact signOrInvalid_append_newline

end Piece

/-- The pieces of a joined source, where the first of the two has no invalid one. -/
theorem pieces_append_newline (valid : ∀ q ∈ pieces cs, q.kind ≠ .invalid) (ds : List Char) :
    pieces (cs ++ '\n' :: ds) = pieces cs ++ ⟨.gap, ['\n']⟩ :: pieces ds := by
  induction cs using pieces.induct with
  | case1 =>
      have newline : Piece.first '\n' ds = (⟨.gap, ['\n']⟩, ds) := if_pos (by decide)
      rw [List.nil_append, pieces, pieces, newline]
      rfl
  | case2 c r ih =>
      rw [pieces] at valid
      have here := Piece.first_append_newline (valid _ List.mem_cons_self) ds
      rw [List.cons_append, pieces, pieces, here,
        ih fun q hq => valid q (List.mem_cons_of_mem _ hq)]
      rfl

/-! ### Places -/

/-- Pieces are placed one behind the other. -/
theorem place_append (p : Position) (qs rs : List Piece) :
    place p (qs ++ rs) = place p qs ++ place (p.advance (qs.flatMap Piece.text)) rs := by
  induction qs generalizing p with
  | nil => rfl
  | cons q qs ih =>
      rw [List.cons_append, place, place, ih, List.flatMap_cons, Position.advance_append,
        List.cons_append]

/-- Pieces that start further behind have spans that are shifted by as much. -/
theorem place_shift (p : Position) (bytes lines : Nat) (qs : List Piece) :
    place ⟨p.offset + bytes, p.line + lines⟩ qs =
      (place p qs).map (Prod.map id (Span.shift bytes lines)) := by
  induction qs generalizing p with
  | nil => rfl
  | cons q qs ih =>
      have behind : Position.advance ⟨p.offset + bytes, p.line + lines⟩ q.text =
          ⟨(p.advance q.text).offset + bytes, (p.advance q.text).line + lines⟩ := by
        simp only [Position.advance, Position.mk.injEq]
        omega
      rw [place, place, behind, ih, List.map_cons, Position.spanOf, behind]
      rfl

theorem mem_place {p : Position} {qs : List Piece} {q : Piece} (h : q ∈ qs) :
    ∃ s, (q.kind, s) ∈ place p qs := by
  induction qs generalizing p with
  | nil => cases h
  | cons q' qs ih =>
      rw [place]
      rcases List.mem_cons.mp h with rfl | h
      · exact ⟨_, List.mem_cons_self⟩
      · obtain ⟨s, hs⟩ := @ih (p.advance q'.text) h
        exact ⟨s, List.mem_cons_of_mem _ hs⟩

/-- Sizes are counted in bytes, on texts and on lists of characters alike. -/
theorem utf8ByteSize_ofList (cs : List Char) : (String.ofList cs).utf8ByteSize = byteSize cs := by
  induction cs with
  | nil => rfl
  | cons c cs ih =>
      rw [String.ofList_cons, String.utf8ByteSize_append, String.utf8ByteSize_singleton, ih,
        byteSize]

theorem byteSize_toList (s : String) : byteSize s.toList = s.utf8ByteSize := by
  rw [← utf8ByteSize_ofList, String.ofList_toList]

/-- Where a span comes to be behind the source `s` and a line feed: further by the bytes of both and
lower by the lines that they end. -/
def Span.behind (s : String) : Span → Span :=
  shift (s.utf8ByteSize + 1) (s.toList.count '\n' + 1)

/-! ### Lexemes -/

variable {s t : String} {ts us : List Lexeme}

/-- What was scanned, in another place. -/
def Scanned.relocate (f : Span → Span) : Scanned → Scanned
  | lexeme l => lexeme (l.relocate f)
  | invalid s => invalid (f s)

theorem Scanned.ofPlaced?_relocate (f : Span → Span) (x : PieceKind × Span) :
    ofPlaced? (Prod.map id f x) = (ofPlaced? x).map (relocate f) := by
  obtain ⟨kind, s⟩ := x
  cases kind <;> rfl

/-- What pieces yield where the first of them starts at `p`. -/
def yields (p : Position) (qs : List Piece) : List Scanned :=
  (place p qs).filterMap Scanned.ofPlaced?

/-- What pieces yield depends on those before them by their place only. -/
theorem yields_append (p : Position) (qs rs : List Piece) :
    yields p (qs ++ rs) = yields p qs ++ yields (p.advance (qs.flatMap Piece.text)) rs := by
  rw [yields, place_append, List.filterMap_append, yields, yields]

theorem yields_cons (p : Position) (q : Piece) (qs : List Piece) :
    yields p (q :: qs) = yields p [q] ++ yields (p.advance q.text) qs := by
  have cut := yields_append p [q] qs
  rwa [List.singleton_append, List.flatMap_singleton] at cut

/-- A piece yields nothing, or one stretch with its text. -/
theorem yields_singleton (p : Position) (q : Piece) :
    yields p [q] = [] ∨ ∃ x, yields p [q] = [x] ∧ x.span = p.spanOf q.text := by
  obtain ⟨kind, text⟩ := q
  cases kind with
  | gap => exact .inl rfl
  | token t => exact .inr ⟨_, rfl, rfl⟩
  | invalid => exact .inr ⟨_, rfl, rfl⟩

/-- What comes behind a text is moved by it. -/
theorem yields_advance (cs : List Char) (qs : List Piece) :
    yields (Position.origin.advance cs) qs =
      (yields .origin qs).map (.relocate (.shift (byteSize cs) (cs.count '\n'))) := by
  have moved : Position.origin.advance cs =
      ⟨Position.origin.offset + byteSize cs, Position.origin.line + cs.count '\n'⟩ := rfl
  rw [yields, moved, place_shift, List.filterMap_map, yields, List.map_filterMap]
  exact congrArg (List.filterMap · _) (funext (Scanned.ofPlaced?_relocate _))

/-- A source that lexes has no invalid piece. -/
theorem kind_ne_invalid_of_scan (h : ∀ x, .invalid x ∉ scan s) :
    ∀ q ∈ pieces s.toList, q.kind ≠ .invalid := by
  intro q hq kind
  obtain ⟨x, hx⟩ := @mem_place .origin _ _ hq
  rw [kind] at hx
  exact h x (List.mem_filterMap.mpr ⟨_, hx, rfl⟩)

/-- A joined source is scanned part by part. -/
theorem scan_append_newline (valid : ∀ x, .invalid x ∉ scan s) (t : String) :
    scan (s ++ "\n" ++ t) = scan s ++ (scan t).map (.relocate (.behind s)) := by
  have text : (s ++ "\n" ++ t).toList = s.toList ++ '\n' :: t.toList := by
    rw [String.toList_append, String.toList_append, List.append_assoc]
    rfl
  have behind : Span.behind s =
      .shift (byteSize (s.toList ++ ['\n'])) ((s.toList ++ ['\n']).count '\n') := by
    rw [byteSize_append, byteSize_toList, List.count_append]
    rfl
  calc scan (s ++ "\n" ++ t)
    _ = yields .origin (pieces s.toList ++ ⟨.gap, ['\n']⟩ :: pieces t.toList) := by
      rw [scan, text, pieces_append_newline (kind_ne_invalid_of_scan valid), yields]
    _ = scan s ++ yields (Position.origin.advance (s.toList ++ ['\n'])) (pieces t.toList) := by
      rw [yields_append, pieces_text, yields_cons, Position.advance_append]
      rfl
    _ = scan s ++ (scan t).map (.relocate (.behind s)) := by
      rw [yields_advance, behind]
      rfl

theorem eq_map_of_lexemesOf {xs : List Scanned} (h : lexemesOf xs = .ok ts) :
    xs = ts.map .lexeme := by
  induction xs generalizing ts with
  | nil =>
      cases h
      rfl
  | cons x xs ih =>
      cases x with
      | invalid => cases h
      | lexeme l =>
          rw [lexemesOf] at h
          cases rest : lexemesOf xs with
          | error e =>
              rw [rest] at h
              cases h
          | ok us =>
              rw [rest] at h
              cases h
              rw [ih rest, List.map_cons]

/-- Valid lexemes in front pass on what comes behind them, error or not. -/
theorem lexemesOf_append (ts : List Lexeme) (xs : List Scanned) :
    lexemesOf (ts.map .lexeme ++ xs) = (lexemesOf xs).map (ts ++ ·) := by
  induction ts with
  | nil => cases h : lexemesOf xs <;> simp [h, Except.map]
  | cons l ts ih =>
      rw [List.map_cons, List.cons_append, lexemesOf, ih]
      cases lexemesOf xs <;> rfl

theorem lexemesOf_map (ts : List Lexeme) : lexemesOf (ts.map .lexeme) = .ok ts := by
  have all := lexemesOf_append ts []
  rw [List.append_nil] at all
  rw [all, lexemesOf, Except.map, List.append_nil]

/-- An error moves with the lexeme that is invalid. -/
theorem lexemesOf_relocate (f : Span → Span) (xs : List Scanned) :
    lexemesOf (xs.map (.relocate f)) =
      match lexemesOf xs with
      | .ok ts => .ok (ts.map (Lexeme.relocate f))
      | .error e => .error (e.relocate f) := by
  induction xs with
  | nil => rfl
  | cons x xs ih =>
      cases x with
      | invalid => rfl
      | lexeme l =>
          rw [List.map_cons, Scanned.relocate, lexemesOf, lexemesOf, ih]
          cases lexemesOf xs <;> rfl

/-- Behind a source with lexemes, another source has its own lexemes, or its own first invalid
stretch, at places that are moved behind the first. -/
theorem lexemes_append_newline (lexed : lexemes s = .ok ts) (t : String) :
    lexemes (s ++ "\n" ++ t) =
      match lexemes t with
      | .ok us => .ok (ts ++ us.map (Lexeme.relocate (.behind s)))
      | .error e => .error (e.relocate (.behind s)) := by
  have scanned : scan s = ts.map .lexeme := eq_map_of_lexemesOf lexed
  have valid : ∀ x, .invalid x ∉ scan s := by simp [scanned]
  rw [lexemes, scan_append_newline valid, scanned, lexemesOf_append, lexemesOf_relocate, lexemes]
  cases lexemesOf (scan t) <;> rfl

end MetaAttack
