import MetaAttack.Proofs.Spelling

/-!
# Slices of a source

A slice that is cut out of a source where its pieces begin and end is cut into the same pieces on
its own: what is in front of a piece does not matter to it, nor does how far the text goes on behind
it. So the text from the start of one lexeme to the end of another has the lexemes between them, at
places that are moved by what stands in front of the slice.
-/

namespace MetaAttack

variable {c : Char} {cs ds r : List Char} {ps qs rs : List Piece} {p : Position}

/-! ### The first piece of a prefix -/

namespace Piece

/-- A run that stops within a text stops there where the text is cut short behind it. -/
theorem run_within {pred : Char → Bool} {rest : List Char}
    (run : cs.takeWhile pred = r) (left : cs.dropWhile pred = rest ++ ds) :
    (r ++ rest).takeWhile pred = r ∧ (r ++ rest).dropWhile pred = rest := by
  have within : ∀ d ∈ r, pred d := fun d hd => List.mem_takeWhile_imp (run ▸ hd)
  have ends : ∀ d ∈ rest.head?, pred d = false := by
    intro d hd
    obtain ⟨rest, rfl⟩ := List.head?_eq_some_iff.mp hd
    have stops := List.head?_dropWhile_not pred cs
    rw [left] at stops
    simpa using stops
  exact ⟨takeWhile_of_ends within ends, dropWhile_of_ends within ends⟩

theorem leading?_of_append {s : Sign} (h : Sign.leading? (cs ++ ds) = some s)
    (fits : s.chars <+: cs) : Sign.leading? cs = some s := by
  obtain ⟨_, as, bs, split, before⟩ := List.find?_eq_some_iff_append.mp h
  refine List.find?_eq_some_iff_append.mpr
    ⟨List.isPrefixOf_iff_prefix.mpr fits, as, bs, split, fun a ha => ?_⟩
  have apart := before a ha
  rw [Bool.not_eq_true', Bool.eq_false_iff, Ne, List.isPrefixOf_iff_prefix] at apart ⊢
  exact fun more => apart (more.trans (List.prefix_append cs ds))

theorem run_of_append {kind : List Char → PieceKind} {pred : Char → Bool} {k : PieceKind}
    {t rest : List Char} (h : run kind pred c cs = (⟨k, c :: t⟩, rest ++ ds)) :
    run kind pred c (t ++ rest) = (⟨k, c :: t⟩, rest) := by
  simp only [run, Prod.mk.injEq, mk.injEq, List.cons.injEq, true_and] at h
  obtain ⟨⟨rfl, run⟩, left⟩ := h
  obtain ⟨run', left'⟩ := run_within run left
  rw [run, Piece.run, run', left']

theorem signOrInvalid_of_append {k : PieceKind} {t rest : List Char} (valid : k ≠ .invalid)
    (h : signOrInvalid c (t ++ (rest ++ ds)) = (⟨k, c :: t⟩, rest ++ ds)) :
    signOrInvalid c (t ++ rest) = (⟨k, c :: t⟩, rest) := by
  rw [signOrInvalid] at h
  split at h
  · next s found =>
    simp only [Prod.mk.injEq, mk.injEq] at h
    obtain ⟨⟨rfl, text⟩, -⟩ := h
    have longest : Sign.leading? (c :: (t ++ rest)) = some s := by
      have longer : Sign.leading? (c :: (t ++ rest) ++ ds) = some s := by
        rwa [List.cons_append, List.append_assoc]
      have fits : s.chars <+: c :: (t ++ rest) := by
        rw [text]
        exact List.prefix_append (c :: t) rest
      exact leading?_of_append longer fits
    rw [signOrInvalid, longest]
    dsimp only
    rw [text]
    rw [← List.cons_append, List.drop_left]
  · exact absurd (congrArg (·.1.kind) h).symm valid

/-- A piece that is a token or a gap is cut alike where what follows is cut short. -/
theorem first_of_append {k : PieceKind} {t rest : List Char} (valid : k ≠ .invalid)
    (h : first c (t ++ (rest ++ ds)) = (⟨k, c :: t⟩, rest ++ ds)) :
    first c (t ++ rest) = (⟨k, c :: t⟩, rest) := by
  -- The clauses are told apart by the whole text, whatever part of it the piece is.
  generalize whole : t ++ (rest ++ ds) = r at h
  revert h
  fun_cases first c r with
  | case1 c r blank =>
      rintro ⟨⟩
      rw [first.eq_def, if_pos blank]
      rfl
  | case2 c r noBlank digit =>
      intro h
      rw [first.eq_def, if_neg noBlank, if_pos digit]
      exact run_of_append h
  | case3 c r noBlank noDigit word =>
      intro h
      rw [first.eq_def, if_neg noBlank, if_neg noDigit, if_pos word]
      exact run_of_append h
  | case4 r body noBlank noDigit noWord =>
      intro h
      simp only [Prod.mk.injEq, mk.injEq, List.cons.injEq, true_and] at h
      obtain ⟨⟨kind, rfl⟩, -⟩ := h
      have closed : (stringBody r).closed = true := by
        by_contra unclosed
        exact valid (kind.symm.trans (if_neg unclosed))
      rw [first.eq_def, if_neg noBlank, if_neg noDigit, if_neg noWord, if_pos rfl,
        stringBody_text_append closed, ← kind]
  | case5 s =>
      intro h
      simp only [Prod.mk.injEq, mk.injEq, List.cons.injEq, true_and] at h
      obtain ⟨⟨rfl, rfl⟩, left⟩ := h
      obtain ⟨run, left⟩ := run_within rfl left
      rw [List.cons_append, first_line, run, left]
  | case6 s inside rest closed =>
      intro h
      simp only [Prod.mk.injEq, mk.injEq, List.cons.injEq, true_and] at h
      obtain ⟨⟨rfl, rfl⟩, rfl⟩ := h
      rw [List.cons_append, first_block, closeComment_inside_append closed]
  | case7 s unclosed =>
      intro h
      exact absurd (congrArg (·.1.kind) h).symm valid
  | case8 c r noBlank noDigit noWord noQuote noLine noBlock =>
      intro h
      have shorter {d : Char} {s : List Char} (hd : t ++ rest = d :: s) :
          t ++ (rest ++ ds) = d :: (s ++ ds) := by
        rw [← List.append_assoc, hd, List.cons_append]
      rw [first.eq_def, if_neg noBlank, if_neg noDigit, if_neg noWord, if_neg noQuote]
      split
      · next behind => exact (noLine _ rfl (whole.symm.trans (shorter behind))).elim
      · next behind => exact (noBlock _ rfl (whole.symm.trans (shorter behind))).elim
      · rw [← whole] at h
        exact signOrInvalid_of_append valid h

/-- The first piece starts with the first character. -/
theorem exists_first (c : Char) (r : List Char) :
    ∃ k t rest, r = t ++ rest ∧ first c r = (⟨k, c :: t⟩, rest) := by
  have whole := first_append c r
  obtain ⟨d, t, text⟩ := List.exists_cons_of_ne_nil (first_text_ne_nil c r)
  rw [text, List.cons_append] at whole
  obtain ⟨rfl, tail⟩ := List.cons.inj whole
  exact ⟨_, t, _, tail.symm, by rw [← text]⟩

end Piece

/-! ### Slices between pieces -/

/-- What is behind the first pieces of a text is cut alike on its own. -/
theorem pieces_behind (h : pieces cs = ps ++ qs) : pieces (qs.flatMap Piece.text) = qs := by
  induction ps generalizing cs with
  | nil =>
      rw [List.nil_append] at h
      rw [← h, pieces_text]
  | cons p ps ih =>
      cases cs with
      | nil =>
          rw [pieces] at h
          cases h
      | cons c r =>
          rw [pieces] at h
          exact ih (List.cons.inj h).2

/-- The first pieces of a text are cut alike without what is behind them. -/
theorem pieces_in_front (valid : ∀ q ∈ ps, q.kind ≠ .invalid) (h : pieces cs = ps ++ qs) :
    pieces (ps.flatMap Piece.text) = ps := by
  induction ps generalizing cs with
  | nil => rw [List.flatMap_nil, pieces]
  | cons p ps ih =>
      cases cs with
      | nil =>
          rw [pieces] at h
          cases h
      | cons c r =>
          obtain ⟨k, t, rest, rfl, cut⟩ := Piece.exists_first c r
          rw [pieces, cut, List.cons_append] at h
          obtain ⟨rfl, more⟩ := List.cons.inj h
          obtain ⟨here, later⟩ := List.forall_mem_cons.mp valid
          have behind : rest = ps.flatMap Piece.text ++ qs.flatMap Piece.text := by
            rw [← List.flatMap_append, ← more, pieces_text]
          rw [behind] at cut
          rw [List.flatMap_cons, List.cons_append, pieces, Piece.first_of_append here cut,
            ih later more]

theorem pieces_between (valid : ∀ q ∈ qs, q.kind ≠ .invalid) (h : pieces cs = ps ++ qs ++ rs) :
    pieces (qs.flatMap Piece.text) = qs := by
  rw [List.append_assoc] at h
  exact pieces_in_front valid (pieces_behind h)

/-! ### Slices between lexemes -/

/-- In front of what a stretch is made of there are pieces that yield what is in front of it. -/
theorem exists_pieces_of_yields {x : Scanned} {xs ys : List Scanned}
    (h : yields p qs = xs ++ x :: ys) :
    ∃ ps q rs, qs = ps ++ q :: rs ∧ yields p ps = xs ∧ yields p (ps ++ [q]) = xs ++ [x] ∧
      x.span = (p.advance (ps.flatMap Piece.text)).spanOf q.text := by
  induction qs generalizing p xs with
  | nil => simp [yields, place] at h
  | cons q qs ih =>
      rw [yields_cons] at h
      rcases yields_singleton p q with none | ⟨y, one, span⟩
      · rw [none, List.nil_append] at h
        obtain ⟨ps, q', rs, rfl, front, whole, span⟩ := ih h
        refine ⟨q :: ps, q', rs, rfl, ?_, ?_, ?_⟩
        · rw [yields_cons, none, List.nil_append, front]
        · rw [List.cons_append, yields_cons, none, List.nil_append, whole]
        · rwa [List.flatMap_cons, Position.advance_append]
      · rw [one, List.singleton_append] at h
        cases xs with
        | nil =>
            obtain ⟨rfl, -⟩ := List.cons.inj h
            exact ⟨[], q, qs, rfl, rfl, one, span⟩
        | cons y' xs =>
            obtain ⟨rfl, more⟩ := List.cons.inj h
            obtain ⟨ps, q', rs, rfl, front, whole, span⟩ := ih more
            refine ⟨q :: ps, q', rs, rfl, ?_, ?_, ?_⟩
            · rw [yields_cons, one, front, List.singleton_append]
            · rw [List.cons_append, yields_cons, one, whole, List.singleton_append,
                List.cons_append]
            · rwa [List.flatMap_cons, Position.advance_append]

/-- Stretches one behind the other come from pieces that start with the first of them and stop with
the last. -/
theorem exists_pieces_between {x y : Scanned} {xs ys zs : List Scanned}
    (h : yields p qs = xs ++ ys ++ zs) (first : ys.head? = some x) (last : ys.getLast? = some y) :
    ∃ fs ms rs, qs = fs ++ ms ++ rs ∧ yields (p.advance (fs.flatMap Piece.text)) ms = ys ∧
      x.span.start = (p.advance (fs.flatMap Piece.text)).offset ∧
      x.span.line = (p.advance (fs.flatMap Piece.text)).line ∧
      y.span.stop = (p.advance ((fs ++ ms).flatMap Piece.text)).offset := by
  obtain ⟨init, whole⟩ := List.getLast?_eq_some_iff.mp last
  obtain ⟨tail, rfl⟩ := List.head?_eq_some_iff.mp first
  rw [whole, ← List.append_assoc, List.append_assoc, List.singleton_append] at h
  obtain ⟨ps, q, rs, rfl, -, upTo, stop⟩ := exists_pieces_of_yields h
  rw [List.append_assoc, ← whole] at upTo
  obtain ⟨fs, q', ms, inner, front, -, start⟩ := exists_pieces_of_yields upTo
  refine ⟨fs, q' :: ms, rs, ?_, ?_, ?_, ?_, ?_⟩
  · rw [← inner, List.append_assoc, List.singleton_append]
  · rw [inner, yields_append, front] at upTo
    exact List.append_cancel_left upTo
  · rw [start, Position.spanOf]
  · rw [start, Position.spanOf]
  · rw [← inner, List.flatMap_append, Position.advance_append, List.flatMap_singleton, stop,
      Position.spanOf]

/-- Pieces that yield lexemes behind a text yield them in front of it too, where they are moved
back. -/
theorem exists_lexemes_of_yields {ts : List Lexeme}
    (h : yields (Position.origin.advance cs) qs = ts.map .lexeme) :
    ∃ us, lexemesOf (yields .origin qs) = .ok us ∧
      us.map (Lexeme.relocate (.shift (byteSize cs) (cs.count '\n'))) = ts := by
  rw [yields_advance] at h
  have read := lexemesOf_relocate (.shift (byteSize cs) (cs.count '\n')) (yields .origin qs)
  rw [h, lexemesOf_map] at read
  cases lexed : lexemesOf (yields .origin qs) with
  | error e =>
      rw [lexed] at read
      cases read
  | ok us =>
      rw [lexed] at read
      exact ⟨us, rfl, (Except.ok.inj read).symm⟩

/-! ### The text of a span -/

/-- The text stands in the source from the start of the span to its end. -/
def Span.Delimits (s : Span) (source text : String) : Prop :=
  ∃ front behind : String, source = front ++ text ++ behind ∧
    front.utf8ByteSize = s.start ∧ (front ++ text).utf8ByteSize = s.stop

/-- There is at most one text in a place. -/
theorem Span.Delimits.unique {s : Span} {source text text' : String} (h : s.Delimits source text)
    (h' : s.Delimits source text') : text = text' := by
  obtain ⟨front, behind, rfl, start, stop⟩ := h
  obtain ⟨front', behind', same, start', stop'⟩ := h'
  have upTo : front ++ text = front' ++ text' := OnLine.eq_of_size_eq same (stop.trans stop'.symm)
  rw [String.append_assoc, String.append_assoc] at same
  obtain rfl : front = front' := OnLine.eq_of_size_eq same (start.trans start'.symm)
  exact (String.append_right_inj front).mp upTo

/-- The span goes from the start of the first lexeme to the end of the last, and has the line of the
first. -/
def Span.Encloses (s : Span) (ts : List Lexeme) : Prop :=
  ∃ a b, ts.head? = some a ∧ ts.getLast? = some b ∧ s = ⟨a.span.start, b.span.stop, a.span.line⟩

/-- The text from the start of one lexeme to the end of another has the lexemes between them, moved
by what is in front of it. -/
theorem Span.Encloses.exists_slice {s : Span} {source : String} {before ts after : List Lexeme}
    (h : s.Encloses ts) (lexed : lexemes source = .ok (before ++ ts ++ after)) :
    ∃ text us, s.Delimits source text ∧ lexemes text = .ok us ∧
      us.map (Lexeme.relocate (.shift s.start (s.line - 1))) = ts := by
  obtain ⟨a, b, first, last, rfl⟩ := h
  have scanned : yields .origin (pieces source.toList) = (before ++ ts ++ after).map .lexeme :=
    eq_map_of_lexemesOf lexed
  have valid : ∀ q ∈ pieces source.toList, q.kind ≠ .invalid := by
    refine kind_ne_invalid_of_scan fun x invalid => ?_
    change _ ∈ yields .origin _ at invalid
    simp [scanned] at invalid
  rw [List.map_append, List.map_append] at scanned
  obtain ⟨fs, ms, rs, cut, between, start, line, stop⟩ := exists_pieces_between scanned
    (by rw [List.head?_map, first]; rfl) (by rw [List.getLast?_map, last]; rfl)
  have whole : source.toList = (fs ++ ms ++ rs).flatMap Piece.text := by rw [← cut, pieces_text]
  have alone : pieces (ms.flatMap Piece.text) = ms :=
    pieces_between (fun q hq => valid q (by rw [cut]; simp [hq])) cut
  obtain ⟨us, lexed', moved⟩ := exists_lexemes_of_yields between
  have bytes : a.span.start = byteSize (fs.flatMap Piece.text) := start.trans (Nat.zero_add _)
  have lines : a.span.line - 1 = (fs.flatMap Piece.text).count '\n' := by
    have below : a.span.line = 1 + (fs.flatMap Piece.text).count '\n' := line
    rw [below, Nat.add_sub_cancel_left]
  refine ⟨.ofList (ms.flatMap Piece.text), us, ⟨.ofList (fs.flatMap Piece.text),
    .ofList (rs.flatMap Piece.text), ?_, ?_, ?_⟩, ?_, ?_⟩
  · rw [← String.ofList_append, ← String.ofList_append, ← List.flatMap_append,
      ← List.flatMap_append, ← whole, String.ofList_toList]
  · rw [utf8ByteSize_ofList, bytes]
  · rw [← String.ofList_append, utf8ByteSize_ofList, ← List.flatMap_append]
    exact (stop.trans (Nat.zero_add _)).symm
  · rw [lexemes, scan, String.toList_ofList, alone]
    exact lexed'
  · rw [bytes, lines, moved]

end MetaAttack
