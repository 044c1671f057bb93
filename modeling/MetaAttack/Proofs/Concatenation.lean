import MetaAttack.Proofs.AlikeSpecs
import MetaAttack.Proofs.Joining
import MetaAttack.Proofs.Soundness

/-!
# Specifications behind each other

A source that can be read is a complete specification of its own: no reader looks behind its last
lexeme for more. So where another source follows behind a line feed, the joined source holds the
items of both, and those of the second have moved by the text in front of them.
-/

namespace MetaAttack

variable {ts us : List Lexeme} {s t : String}

/-! ### Lexemes that are shifted -/

/-- To look at one source as it is shifted, and at the other as it is. -/
def Views.shifted (bytes lines : Nat) : Views where
  left := Span.shift bytes lines
  right := id
  merge ha hb := by rw [Span.shift_merge, ha, hb]; rfl

/-- Shifting keeps what touches what. -/
theorem touching_shift (bytes lines : Nat) (ts : List Lexeme) :
    Touching (ts.map (Lexeme.relocate (Span.shift bytes lines))) ↔ Touching ts := by
  fun_cases Touching ts with
  | case1 w s d f s' r =>
      simp only [List.map_cons, Lexeme.relocate, Touching, Span.shift, Nat.add_right_cancel_iff]
  | case2 ts apart =>
      rw [Touching]
      rintro w s d f s' r same
      obtain ⟨⟨_, _⟩, ts, rfl, ⟨⟩, behind⟩ := List.map_eq_cons_iff.mp same
      obtain ⟨⟨_, _⟩, ts, rfl, ⟨⟩, last⟩ := List.map_eq_cons_iff.mp behind
      obtain ⟨⟨_, _⟩, ts, rfl, ⟨⟩, _⟩ := List.map_eq_cons_iff.mp last
      exact apart _ _ _ _ _ _ rfl

/-- A list of lexemes and the same list shifted look alike to this pair of views. -/
theorem alike_shift (bytes lines : Nat) (ts : List Lexeme) :
    Alike (.shifted bytes lines) ts (ts.map (Lexeme.relocate (Span.shift bytes lines))) := by
  induction ts with
  | nil => exact .nil
  | cons l ts ih => exact .cons rfl (touching_shift bytes lines (l :: ts)).symm ih

/-- Lexemes behind the source `s` are read as what they stand for, moved behind it. -/
theorem Item.readAll_behind {eof eof' : Span} (s : String) (us : List Lexeme)
    (ends : us ≠ [] → Span.behind s eof = eof') :
    readAll eof' (us.map (Lexeme.relocate (.behind s))) =
      relocateResult (.behind s) (fun g => List.map (relocate g)) (readAll eof us) := by
  cases us with
  | nil =>
      rw [List.map_nil, readAll, readAll]
      rfl
  | cons l us =>
      have still : List.map (relocate id) = id := by rw [relocate_id, List.map_id_fun]
      rw [← relocateResult_id (fun g => List.map (relocate g)) still (readAll eof' _)]
      exact (relocate_readAll (ends (List.cons_ne_nil l us)) (alike_shift _ _ (l :: us))).symm

namespace Spec

/-- The end of a joined source is that of the second, moved, where this has a lexeme. -/
theorem behind_endOf (s t : String) (ts : List Lexeme) (some : us ≠ []) :
    Span.behind s (endOf t us) =
      endOf (s ++ "\n" ++ t) (ts ++ us.map (Lexeme.relocate (.behind s))) := by
  have size : (s ++ "\n" ++ t).utf8ByteSize = t.utf8ByteSize + (s.utf8ByteSize + 1) := by
    rw [String.utf8ByteSize_append, String.utf8ByteSize_append, Nat.add_comm]
    rfl
  obtain ⟨l, last⟩ := Option.ne_none_iff_exists'.mp (mt List.getLast?_eq_none_iff.mp some)
  have last' : (ts ++ us.map (Lexeme.relocate (.behind s))).getLast? =
      Option.some (l.relocate (.behind s)) := by
    rw [List.getLast?_append, List.getLast?_map, last]
    rfl
  rw [endOf, endOf, last, last', size]
  rfl

/-- Behind a source that is a specification and a line feed, another source is read as it is on its
own, with everything in it moved behind the first. -/
theorem ofSource_join {spec : Spec} (h : ofSource s = .ok spec) (t : String) :
    ofSource (s ++ "\n" ++ t) =
      (relocateResult (.behind s) relocate (ofSource t)).map fun more =>
        ⟨spec.items ++ more.items⟩ := by
  obtain ⟨ts, lexed⟩ := lexed_of_ofSource h
  have derived := derives_exact_of_ofSource lexed (fun _ => trivial) h
  rw [ofSource, lexemes_append_newline lexed, ofSource]
  cases lexemes t with
  | error e => rfl
  | ok us =>
      dsimp only
      rw [Item.readAll_append (fun _ _ separate => separate) derived,
        Item.readAll_behind s us (behind_endOf s t ts)]
      cases Item.readAll (endOf t us) us <;> rfl

/-- Behind a source that can be read and a line feed, another can be read exactly where it can be on
its own. The items are then those of the first and, moved by the bytes and the lines in front of
them, those of the second; an error is that of the second, moved alike. -/
theorem ofSource_append_newline {spec : Spec} (h : ofSource s = .ok spec) (t : String) :
    ((∃ joined, ofSource (s ++ "\n" ++ t) = .ok joined) ↔ ∃ more, ofSource t = .ok more) ∧
    (∀ more, ofSource t = .ok more →
      ofSource (s ++ "\n" ++ t) =
        .ok ⟨spec.items ++ more.items.map (Item.relocate (.behind s))⟩) ∧
    ∀ e, ofSource t = .error e →
      ofSource (s ++ "\n" ++ t) = .error (e.relocate (.behind s)) := by
  rw [ofSource_join h]
  cases ofSource t with
  | ok more => simp [relocateResult, relocate, Except.map]
  | error e => simp [relocateResult, Except.map]

/-! ### A define and an include -/

namespace JoinedSources

/-- A source that ends within a comment. -/
def named : String := "#id: \"lan\" // name"

/-- The include stands on the second line. -/
def including : String := "// parts\ninclude \"part\""

/-- The define that the first source declares. -/
def define : Item := .declaration (.define ⟨⟨"id", ⟨1, 3, 1⟩⟩, "lan", ⟨0, 10, 1⟩⟩)

def namedLexemes : List Lexeme :=
  [⟨.sign .hash, ⟨0, 1, 1⟩⟩, ⟨.ident "id", ⟨1, 3, 1⟩⟩, ⟨.sign .colon, ⟨3, 4, 1⟩⟩,
    ⟨.string "lan", ⟨5, 10, 1⟩⟩]

def includingLexemes : List Lexeme :=
  [⟨.keyword .inclusion, ⟨9, 16, 2⟩⟩, ⟨.string "part", ⟨17, 23, 2⟩⟩]

/-- The first source, read on its own. -/
theorem ofSource_named : ofSource named = .ok ⟨[define]⟩ := by
  have lexed : lexemes named = .ok namedLexemes := by decide +kernel
  have derived : Many (Item.Derives .separate) (namedLexemes ++ []) [define] := .cons .define .nil
  exact ofSource_of_derives lexed derived

/-- The second one, whose include is in its second line. -/
theorem ofSource_including : ofSource including = .ok ⟨[.inclusion ⟨"part", ⟨9, 23, 2⟩⟩]⟩ := by
  have lexed : lexemes including = .ok includingLexemes := by decide +kernel
  have derived : Many (Item.Derives .separate) (includingLexemes ++ [])
      [.inclusion ⟨"part", ⟨9, 23, 2⟩⟩] := .cons .inclusion .nil
  exact ofSource_of_derives lexed derived

end JoinedSources

open JoinedSources in
/-- The line feed ends the comment of the first source, and the include moves to the third line. -/
theorem ofSource_joinedSources :
    ofSource named = .ok ⟨[define]⟩ ∧
      ofSource (named ++ "\n" ++ including) =
        .ok ⟨[define, .inclusion ⟨"part", ⟨28, 42, 3⟩⟩]⟩ := by
  have bytes : named.utf8ByteSize = 18 := by decide +kernel
  have lines : named.toList.count '\n' = 0 := by decide +kernel
  refine ⟨ofSource_named, ?_⟩
  have joined := (ofSource_append_newline ofSource_named including).2.1 _ ofSource_including
  rw [joined, Span.behind, bytes, lines]
  rfl

end Spec

end MetaAttack
