import MetaAttack.Proofs.Spans

/-!
# Where reading stops

A source that is refused is refused at a place in it: at a lexeme, at a stretch that starts no token
or at its end. The end is given the line of the last lexeme, which is not its own where line feeds
follow. Everywhere else the line is that on which the span starts.
-/

namespace MetaAttack

variable {source : String} {s : Span} {e : ParseError} {ts : List Lexeme}

/-- A line feed stands in the source from the start of its last token on. -/
def FeedsBehind (source : String) : Prop :=
  ∃ ts l before after, lexemes source = .ok ts ∧ ts.getLast? = some l ∧
    source = before ++ after ∧ before.utf8ByteSize = l.span.start ∧ '\n' ∈ after.toList

/-- The span is in the source, between characters. Its line is right, unless it is at an end that
line feeds separate from the last token. -/
structure Locates (source : String) (s : Span) : Prop where
  ordered : s.start ≤ s.stop
  within : s.stop ≤ source.utf8ByteSize
  start : (String.Pos.Raw.mk s.start).IsValid source
  stop : (String.Pos.Raw.mk s.stop).IsValid source
  line : OnLine source s.start s.line ↔ ¬ (s.start = source.utf8ByteSize ∧ FeedsBehind source)

/-! ### Spans up to the end -/

/-- The span is in the source, between characters, on its own line or, at the end, on the line
`last`. -/
structure UpToEnd (source : String) (last : Nat) (s : Span) : Prop where
  ordered : s.start ≤ s.stop
  start : (String.Pos.Raw.mk s.start).IsValid source
  stop : (String.Pos.Raw.mk s.stop).IsValid source
  inside : s.start ≠ source.utf8ByteSize → OnLine source s.start s.line
  atEnd : s.start = source.utf8ByteSize → s.line = last

theorem Placed.start_ne (h : Placed source s) : s.start ≠ source.utf8ByteSize :=
  Nat.ne_of_lt (Nat.lt_of_lt_of_le h.nonempty h.stop_le)

theorem Placed.upToEnd (h : Placed source s) (last : Nat) : UpToEnd source last s where
  ordered := Nat.le_of_lt h.nonempty
  start := h.line.isValid
  stop := h.stop
  inside _ := h.line
  atEnd atEnd := absurd atEnd h.start_ne

theorem upToEnd_endOf (source : String) (ts : List Lexeme) :
    UpToEnd source (Spec.endOf source ts).line (Spec.endOf source ts) where
  ordered := Nat.le_refl _
  start := (OnLine.at_end_iff.mpr rfl).isValid
  stop := (OnLine.at_end_iff.mpr rfl).isValid
  inside other := absurd rfl other
  atEnd _ := rfl

theorem merges_upToEnd (last : Nat) : Merges (UpToEnd source last) := by
  intro a b ha hb
  have stop : (String.Pos.Raw.mk (max a.stop b.stop)).IsValid source :=
    max_rec' (fun n => (String.Pos.Raw.mk n).IsValid source) ha.stop hb.stop
  rw [Span.merge]
  split
  · exact ⟨le_max_of_le_left ha.ordered, ha.start, stop, ha.inside, ha.atEnd⟩
  · exact ⟨le_max_of_le_right hb.ordered, hb.start, stop, hb.inside, hb.atEnd⟩

/-! ### Errors -/

/-- The line of the last lexeme is that of the end where no line feed follows. -/
theorem onLine_end_iff {l : Lexeme} (lexed : lexemes source = .ok ts) (hl : ts.getLast? = some l) :
    OnLine source source.utf8ByteSize l.span.line ↔ ¬ FeedsBehind source := by
  have mem := mem_scan_of_lexemes lexed (List.mem_of_getLast? hl)
  have own : OnLine source l.span.start l.span.line := (placed_of_mem_scan mem).line
  -- the line of the end, counted from the lexeme on
  have further : ∀ before after : String, source = before ++ after →
      before.utf8ByteSize = l.span.start →
      (OnLine source source.utf8ByteSize l.span.line ↔ '\n' ∉ after.toList) := by
    intro before after text size
    have line := own.unique ⟨before, after, text, size, rfl⟩
    rw [OnLine.at_end_iff, line, text, String.toList_append, List.count_append,
      ← List.count_eq_zero]
    omega
  constructor
  · rintro right ⟨ts', l', before, after, lexed', hl', text, size, newline⟩
    cases lexed.symm.trans lexed'
    cases hl.symm.trans hl'
    exact (further before after text size).mp right newline
  · intro none
    obtain ⟨before, after, text, size, -⟩ := own
    refine (further before after text size).mpr fun newline => none ?_
    exact ⟨ts, l, before, after, lexed, hl, text, size, newline⟩

theorem invalid_mem_of_lexemesOf {xs : List Scanned} {c : InvalidCharacter}
    (h : lexemesOf xs = .error c) : .invalid c.span ∈ xs := by
  induction xs with
  | nil => cases h
  | cons x xs ih =>
      cases x with
      | invalid s =>
          cases h
          exact List.mem_cons_self
      | lexeme l =>
          rw [lexemesOf] at h
          cases rest : lexemesOf xs with
          | ok ts =>
              rw [rest] at h
              cases h
          | error d =>
              rw [rest] at h
              cases h
              exact List.mem_cons_of_mem _ (ih rest)

/-- An error at an invalid stretch is located by scanning alone. -/
theorem Placed.locates (h : Placed source s) : Locates source s where
  ordered := Nat.le_of_lt h.nonempty
  within := h.stop_le
  start := h.line.isValid
  stop := h.stop
  line := iff_of_true h.line fun atEnd => h.start_ne atEnd.1

/-- A span up to the end has its own line, but for the end that is given the line of a lexeme. -/
theorem UpToEnd.locates {l : Lexeme} (lexed : lexemes source = .ok ts) (hl : ts.getLast? = some l)
    (h : UpToEnd source l.span.line s) : Locates source s where
  ordered := h.ordered
  within := h.stop.le_rawEndPos
  start := h.start
  stop := h.stop
  line := by
    by_cases atEnd : s.start = source.utf8ByteSize
    · rw [h.atEnd atEnd, atEnd, onLine_end_iff lexed hl]
      exact (not_congr (and_iff_right rfl)).symm
    · exact iff_of_true (h.inside atEnd) fun both => atEnd both.1

/-- Reading stops within the source, and on the line that is given unless it stops at an end that
line feeds separate from the last token. -/
theorem Spec.locates_of_ofSource (h : ofSource source = .error e) : Locates source e.span := by
  rw [ofSource] at h
  cases lexed : lexemes source with
  | error c =>
      rw [lexed] at h
      cases h
      exact (placed_of_mem_scan (invalid_mem_of_lexemesOf lexed)).locates
  | ok ts =>
      rw [lexed] at h
      dsimp only at h
      cases read : Item.readAll (endOf source ts) ts with
      | ok items =>
          rw [read] at h
          cases h
      | error e' =>
          rw [read] at h
          cases h
          cases hl : ts.getLast? with
          | none =>
              -- nothing is missing where there is no lexeme
              rw [List.getLast?_eq_none_iff.mp hl, Item.readAll] at read
              cases read
          | some l =>
              have last : (endOf source ts).line = l.span.line := by rw [endOf, hl]; rfl
              have lexeme : ∀ k ∈ ts, UpToEnd source l.span.line k.span := fun k hk =>
                (placed_of_mem_scan (mem_scan_of_lexemes lexed hk)).upToEnd _
              have ends := last ▸ upToEnd_endOf source ts
              exact (Item.span_of_readAll (merges_upToEnd _) ends lexeme read).locates lexed hl

/-! ### A name and a brace that are missing -/

/-- A variable without a name, on the third line. -/
def namelessVariable : String := "category C \x7b\n  asset A \x7b\n    let = x\n  \x7d\n\x7d"

theorem Spec.locates_namelessVariable :
    ∃ e, ofSource namelessVariable = .error e ∧ e.span = ⟨33, 34, 3⟩ ∧
      Locates namelessVariable e.span ∧ OnLine namelessVariable e.span.start e.span.line := by
  have stopped : (ofSource namelessVariable).map (fun _ => ()) =
      .error (.expectedIdent (.sign .equals) ⟨33, 34, 3⟩) := by decide +kernel
  have size : namelessVariable.utf8ByteSize = 42 := by decide +kernel
  cases h : ofSource namelessVariable with
  | ok spec =>
      rw [h] at stopped
      cases stopped
  | error e =>
      rw [h] at stopped
      cases stopped
      have located := locates_of_ofSource h
      refine ⟨_, rfl, rfl, located, located.line.mpr fun atEnd => ?_⟩
      rw [size] at atEnd
      exact absurd atEnd.1 (by decide)

/-- A category that is not closed, with line feeds at the end. -/
def openCategory : String := "category C \x7b\n\n"

/-- The end of the source is on the third line and reported on the first. -/
theorem Spec.ofSource_openCategory :
    ∃ e, ofSource openCategory = .error e ∧ e.span = ⟨14, 14, 1⟩ ∧
      ¬ OnLine openCategory e.span.start e.span.line ∧ OnLine openCategory e.span.start 3 := by
  have stopped : (ofSource openCategory).map (fun _ => ()) =
      .error (.unexpectedEnd (.token (.sign .rbrace)) ⟨14, 14, 1⟩) := by decide +kernel
  have size : openCategory.utf8ByteSize = 14 := by decide +kernel
  have third : OnLine openCategory 14 3 := size ▸ OnLine.at_end_iff.mpr (by decide +kernel)
  cases h : ofSource openCategory with
  | ok spec =>
      rw [h] at stopped
      cases stopped
  | error e =>
      rw [h] at stopped
      cases stopped
      exact ⟨_, rfl, rfl, fun first => absurd (first.unique third) (by decide), third⟩

end MetaAttack
