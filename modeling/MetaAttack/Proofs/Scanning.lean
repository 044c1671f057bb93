import MetaAttack.Proofs.Joining

/-!
# What scanning leaves out

The stretches that scanning yields, tokens and invalid ones alike, lie one behind the other in the
source. What is before, between and behind them is blank or a comment, and every stretch has the
line on which it starts.

## Implementation notes

`Covers` cuts the text as scanning does, from a position on, so that it goes by induction over the
pieces. What a reader of the source can check, with offsets into the whole of it, is `Scans`, which
follows from it.
-/

namespace MetaAttack

/-! ### Text that is passed over -/

/-- A blank character or a comment, where `ds` follows. A line comment goes up to the end of its
line, and a block comment up to the first place that closes it. -/
inductive Gap : List Char → List Char → Prop
  | blank {c : Char} {ds : List Char} (blank : c ∈ [' ', '\t', '\r', '\n', '\x0c']) : Gap [c] ds
  | line {cs ds : List Char} (within : '\n' ∉ cs) (whole : ∀ c ∈ ds.head?, c = '\n') :
      Gap ('/' :: '/' :: cs) ds
  | block {cs ds : List Char} (within : ¬ ['*', '/'] <:+: cs) :
      Gap ('/' :: '*' :: (cs ++ ['*', '/'])) ds

/-- Blank characters and comments in a row, where `ds` follows. -/
inductive Skipped : List Char → List Char → Prop
  | nil {ds : List Char} : Skipped [] ds
  | cons {text cs ds : List Char} (first : Gap text (cs ++ ds)) (more : Skipped cs ds) :
      Skipped (text ++ cs) ds

variable {c : Char} {p : Position} {x : Scanned} {xs : List Scanned}
variable {r cs ds text behind : List Char}

namespace Piece

/-- A block comment is closed by the first `*/` behind its opening. -/
theorem closeComment_inside {inside rest : List Char}
    (h : closeComment cs = some (inside, rest)) :
    ∃ body, inside = body ++ ['*', '/'] ∧ ¬ ['*', '/'] <:+: body := by
  induction cs using closeComment.induct generalizing inside with
  | case1 r =>
      cases h
      exact ⟨[], rfl, by simp⟩
  | case2 c r unclosed ih =>
      have text := closeComment_append h
      rw [closeComment] at h
      · obtain ⟨⟨inside', rest'⟩, hr, same⟩ := Option.map_eq_some_iff.mp h
        cases same
        obtain ⟨body, rfl, within⟩ := ih hr
        refine ⟨c :: body, rfl, fun closes => ?_⟩
        rcases List.infix_cons_iff.mp closes with ⟨s, hs⟩ | later
        · cases hs
          refine unclosed (s ++ (['*', '/'] ++ rest)) rfl ?_
          exact (List.cons.inj text).2.symm.trans (by simp)
        · exact within later
      · exact unclosed
  | case3 => cases h

theorem kind_signOrInvalid_ne_gap (c : Char) (r : List Char) :
    (signOrInvalid c r).1.kind ≠ .gap := by
  rw [signOrInvalid]
  split <;> simp

/-- A piece that is left out is a gap in front of the text behind it. -/
theorem gap_of_first (h : (first c r).1.kind = .gap) : Gap (first c r).1.text (first c r).2 := by
  revert h
  fun_cases first c r with
  | case1 c r blank => exact fun _ => .blank (by simpa [isBlank, or_assoc] using blank)
  | case2 c r noBlank digit =>
      intro h
      cases h
  | case3 c r noBlank noDigit word =>
      intro h
      cases h
  | case4 r body noBlank noDigit noWord =>
      intro h
      cases closed : (stringBody r).closed <;> simp [body, closed] at h
  | case5 s =>
      refine fun _ => .line (fun newline => ?_) fun c hc => ?_
      · simpa using List.mem_takeWhile_imp newline
      · have := List.head?_dropWhile_not (· ≠ '\n') s
        rw [hc] at this
        simpa using this
  | case6 s inside rest closed =>
      intro _
      obtain ⟨body, rfl, within⟩ := closeComment_inside closed
      exact .block within
  | case7 s unclosed =>
      intro h
      cases h
  | case8 c r noBlank noDigit noWord noQuote noLine noBlock =>
      exact fun h => absurd h (kind_signOrInvalid_ne_gap c r)

end Piece

/-! ### A text from a position on -/

/-- The text, which starts at `p`, holds these stretches one behind the other, and nothing else but
what is passed over. -/
inductive Covers : Position → List Char → List Scanned → Prop
  | rest {p : Position} {cs : List Char} (skipped : Skipped cs []) : Covers p cs []
  | item {p : Position} {cs text behind : List Char} {x : Scanned} {xs : List Scanned}
      (skipped : Skipped cs (text ++ behind)) (nonempty : text ≠ [])
      (place : x.span = (p.advance cs).spanOf text)
      (more : Covers ((p.advance cs).advance text) behind xs) :
      Covers p (cs ++ (text ++ behind)) (x :: xs)

theorem Covers.skip (gap : Gap text cs) (h : Covers (p.advance text) cs xs) :
    Covers p (text ++ cs) xs := by
  cases h with
  | rest skipped =>
      refine .rest (.cons ?_ skipped)
      rwa [List.append_nil]
  | item skipped nonempty place more =>
      rw [← Position.advance_append] at place
      rw [← Position.advance_append p] at more
      rw [← List.append_assoc]
      exact .item (.cons gap skipped) nonempty place more

/-- Scanning covers the text. -/
theorem covers_pieces (p : Position) (cs : List Char) : Covers p cs (yields p (pieces cs)) := by
  induction cs using pieces.induct generalizing p with
  | case1 =>
      rw [pieces]
      exact .rest .nil
  | case2 c r ih =>
      rw [pieces, yields, place]
      have more := ih (p.advance (Piece.first c r).1.text)
      have found : ∀ x : Scanned, x.span = p.spanOf (Piece.first c r).1.text →
          Covers p (c :: r) (x :: _) := fun x place => by
        have here : Covers p ([] ++ _) (x :: _) :=
          .item .nil (Piece.first_text_ne_nil c r) place more
        rwa [List.nil_append, Piece.first_append] at here
      cases kind : (Piece.first c r).1.kind with
      | gap =>
          rw [← Piece.first_append c r]
          exact .skip (Piece.gap_of_first kind) more
      | token t => exact found (.lexeme ⟨t, _⟩) rfl
      | invalid => exact found (.invalid _) rfl

theorem covers_scan (source : String) : Covers .origin source.toList (scan source) :=
  covers_pieces .origin source.toList

namespace Covers

/-- A stretch has its text where its span says. -/
theorem text_of_mem (h : Covers p cs xs) (hx : x ∈ xs) :
    ∃ front text behind, cs = front ++ (text ++ behind) ∧ text ≠ [] ∧
      x.span = (p.advance front).spanOf text := by
  induction h with
  | rest => cases hx
  | @item p cs text behind y ys skipped nonempty place more ih =>
      rcases List.mem_cons.mp hx with rfl | hx
      · exact ⟨cs, text, behind, rfl, nonempty, place⟩
      · obtain ⟨front, text', behind', rfl, nonempty', place'⟩ := ih hx
        refine ⟨cs ++ text ++ front, text', behind', by simp, nonempty', ?_⟩
        rw [place', Position.advance_append, Position.advance_append]

theorem offset_le_start (h : Covers p cs xs) (hx : x ∈ xs) : p.offset ≤ x.span.start := by
  obtain ⟨front, text, behind, -, -, place⟩ := h.text_of_mem hx
  rw [place]
  exact Nat.le_add_right ..

theorem disjoint (h : Covers p cs xs) : xs.Pairwise fun x y => x.span.stop ≤ y.span.start := by
  induction h with
  | rest => exact .nil
  | item skipped nonempty place more ih =>
      refine .cons (fun y hy => ?_) ih
      rw [place]
      exact more.offset_le_start hy

end Covers

/-- The stretches of bytes from `lo` up to `hi` that none of the spans covers, if the spans are one
behind the other: before the first, between them and behind the last. -/
def gaps (lo : Nat) (xs : List Scanned) (hi : Nat) : List (Nat × Nat) :=
  match xs with
  | [] => [(lo, hi)]
  | x :: xs => (lo, x.span.start) :: gaps x.span.stop xs hi

/-- What is not covered by a stretch is passed over. -/
theorem Covers.skipped_of_mem_gaps {g : Nat × Nat} (h : Covers p cs xs)
    (hg : g ∈ gaps p.offset xs (p.advance cs).offset) :
    ∃ front gap behind, cs = front ++ (gap ++ behind) ∧ g.1 = (p.advance front).offset ∧
      g.2 = (p.advance (front ++ gap)).offset ∧ Skipped gap behind := by
  induction h with
  | @rest p cs skipped =>
      rw [gaps, List.mem_singleton] at hg
      cases hg
      exact ⟨[], cs, [], by simp, rfl, rfl, skipped⟩
  | @item p cs text behind y ys skipped nonempty place more ih =>
      rw [gaps, place] at hg
      rcases List.mem_cons.mp hg with rfl | hg
      · exact ⟨[], cs, text ++ behind, rfl, rfl, rfl, skipped⟩
      · have past : p.advance (cs ++ (text ++ behind)) =
            ((p.advance cs).advance text).advance behind := by
          rw [Position.advance_append, Position.advance_append]
        rw [past] at hg
        obtain ⟨front, gap, behind', rfl, lo, hi, skipped'⟩ := ih hg
        refine ⟨cs ++ text ++ front, gap, behind', by simp, ?_, ?_, skipped'⟩
        · rw [lo, Position.advance_append, Position.advance_append]
        · rw [hi, List.append_assoc (cs ++ text), Position.advance_append (p := p),
            Position.advance_append (p := p)]

/-! ### Places in the whole source -/

theorem byteSize_pos (h : text ≠ []) : 0 < byteSize text := by
  obtain ⟨c, cs, rfl⟩ := List.exists_cons_of_ne_nil h
  rw [byteSize]
  exact Nat.add_pos_left c.utf8Size_pos _

/-- The byte is the first of a character, or the end, and the line is that of the byte: one more
than there are line feeds in front of it. -/
def OnLine (source : String) (offset line : Nat) : Prop :=
  ∃ before after : String, source = before ++ after ∧ before.utf8ByteSize = offset ∧
    line = 1 + before.toList.count '\n'

namespace OnLine

variable {source : String} {offset line : Nat}

theorem isValid (h : OnLine source offset line) : (String.Pos.Raw.mk offset).IsValid source := by
  obtain ⟨before, after, text, rfl, -⟩ := h
  exact String.Pos.Raw.isValid_iff_exists_append.mpr ⟨before, after, text, rfl⟩

theorem of_toList {front behind : List Char} (h : source.toList = front ++ behind) :
    OnLine source (Position.origin.advance front).offset (Position.origin.advance front).line := by
  refine ⟨.ofList front, .ofList behind, ?_, ?_, ?_⟩
  · rw [← String.ofList_append, ← h, String.ofList_toList]
  · rw [utf8ByteSize_ofList]
    exact (Nat.zero_add _).symm
  · rw [String.toList_ofList]
    rfl

/-- There is one text of a size in front of the rest. -/
theorem eq_of_append_eq {cs ds : List Char} (h : cs ++ behind = ds ++ r)
    (size : byteSize cs = byteSize ds) : cs = ds := by
  induction cs generalizing ds with
  | nil =>
      cases ds with
      | nil => rfl
      | cons d ds => exact absurd size (byteSize_pos (List.cons_ne_nil d ds)).ne
  | cons c cs ih =>
      cases ds with
      | nil => exact absurd size (byteSize_pos (List.cons_ne_nil c cs)).ne'
      | cons d ds =>
          obtain ⟨rfl, tails⟩ := List.cons.inj h
          rw [ih tails (Nat.add_left_cancel size)]

theorem eq_of_size_eq {a b a' b' : String} (h : a ++ b = a' ++ b')
    (size : a.utf8ByteSize = a'.utf8ByteSize) : a = a' := by
  have lists := congrArg String.toList h
  rw [String.toList_append, String.toList_append] at lists
  exact String.toList_inj.mp
    (eq_of_append_eq lists (by rw [byteSize_toList, byteSize_toList, size]))

/-- An offset is on one line. -/
theorem unique {line' : Nat} (h : OnLine source offset line) (h' : OnLine source offset line') :
    line = line' := by
  obtain ⟨before, after, text, size, rfl⟩ := h
  obtain ⟨before', after', text', size', rfl⟩ := h'
  rw [eq_of_size_eq (text.symm.trans text') (size.trans size'.symm)]

/-- The end of the source is as many lines down as there are line feeds. -/
theorem at_end_iff :
    OnLine source source.utf8ByteSize line ↔ line = 1 + source.toList.count '\n' := by
  have whole : OnLine source source.utf8ByteSize (1 + source.toList.count '\n') :=
    ⟨source, "", String.append_empty.symm, rfl, rfl⟩
  exact ⟨fun h => h.unique whole, fun h => h ▸ whole⟩

end OnLine

/-- The span is that of a text in the source, with the line on which the text starts. -/
structure Placed (source : String) (s : Span) : Prop where
  nonempty : s.start < s.stop
  line : OnLine source s.start s.line
  stop : (String.Pos.Raw.mk s.stop).IsValid source

theorem Placed.stop_le {source : String} {s : Span} (h : Placed source s) :
    s.stop ≤ source.utf8ByteSize :=
  h.stop.le_rawEndPos

theorem placed_of_mem_scan {source : String} (hx : x ∈ scan source) : Placed source x.span := by
  obtain ⟨front, text, behind, whole, nonempty, place⟩ := (covers_scan source).text_of_mem hx
  have stop : source.toList = (front ++ text) ++ behind := by rw [whole, List.append_assoc]
  rw [place]
  refine ⟨Nat.lt_add_of_pos_right (byteSize_pos nonempty), .of_toList whole, ?_⟩
  rw [Position.spanOf, ← Position.advance_append]
  exact (OnLine.of_toList stop).isValid

theorem mem_scan_of_lexemes {source : String} {ts : List Lexeme} {l : Lexeme}
    (lexed : lexemes source = .ok ts) (hl : l ∈ ts) : .lexeme l ∈ scan source := by
  rw [eq_map_of_lexemesOf lexed]
  exact List.mem_map_of_mem hl

/-- The stretches are in order, each where it says, and nothing but blank characters and comments is
left out. -/
structure Scans (source : String) (xs : List Scanned) : Prop where
  nonempty : ∀ x ∈ xs, x.span.start < x.span.stop
  increasing : xs.Pairwise fun x y => x.span.start < y.span.start
  disjoint : xs.Pairwise fun x y => x.span.stop ≤ y.span.start
  within : ∀ x ∈ xs, x.span.stop ≤ source.utf8ByteSize
  boundary : ∀ x ∈ xs, (String.Pos.Raw.mk x.span.start).IsValid source ∧
    (String.Pos.Raw.mk x.span.stop).IsValid source
  skipped : ∀ g ∈ gaps 0 xs source.utf8ByteSize, ∃ before gap after : String,
    source = before ++ gap ++ after ∧ before.utf8ByteSize = g.1 ∧
      (before ++ gap).utf8ByteSize = g.2 ∧ Skipped gap.toList after.toList
  line : ∀ x ∈ xs, OnLine source x.span.start x.span.line

/-- Scanning loses nothing but blank characters and comments, and counts lines. -/
theorem scans_scan (source : String) : Scans source (scan source) := by
  have covers := covers_scan source
  have placed : ∀ x ∈ scan source, Placed source x.span := fun x => placed_of_mem_scan
  refine
    { nonempty := fun x hx => (placed x hx).nonempty
      increasing := ?increasing
      disjoint := covers.disjoint
      within := fun x hx => (placed x hx).stop_le
      boundary := fun x hx => ⟨(placed x hx).line.isValid, (placed x hx).stop⟩
      skipped := fun g hg => ?skipped
      line := fun x hx => (placed x hx).line }
  case increasing =>
    refine covers.disjoint.imp_of_mem fun hx _ apart => ?_
    exact Nat.lt_of_lt_of_le (placed _ hx).nonempty apart
  case skipped =>
    have size : (Position.origin.advance source.toList).offset = source.utf8ByteSize := by
      rw [← byteSize_toList]
      exact Nat.zero_add _
    rw [← size] at hg
    obtain ⟨front, gap, behind, text, lo, hi, skipped⟩ := covers.skipped_of_mem_gaps hg
    refine ⟨.ofList front, .ofList gap, .ofList behind, ?_, ?_, ?_, ?_⟩
    · rw [← String.ofList_append, ← String.ofList_append, List.append_assoc, ← text,
        String.ofList_toList]
    · rw [utf8ByteSize_ofList, lo]
      exact (Nat.zero_add _).symm
    · rw [← String.ofList_append, utf8ByteSize_ofList, hi]
      exact (Nat.zero_add _).symm
    · rwa [String.toList_ofList, String.toList_ofList]

end MetaAttack
