import MetaAttack.Proofs.Relocation
import MetaAttack.Proofs.TermSoundness

/-!
# How tightly operators bind

The reader of expressions and the reader of times to compromise decide their grammars: they yield
what the consumed lexemes derive, and read whatever is derived up to where it ends. An expression is
derived from its tokens alone, so equal tokens derive equal expressions wherever they stand. A time
is not, as the digits of a fraction have to touch.

## Implementation notes

Derivations carry spans. That the places of lexemes do not matter is said by deriving the same
expression, looked at without spans, from other lexemes with the same tokens.
-/

namespace MetaAttack

/-! ### Places left out -/

/-- Forgets where a span is. -/
def Span.erase : Span → Span := fun _ => .nowhere

/-- The lexemes have the same tokens, in places of their own. -/
def SameTokens (ts us : List Lexeme) : Prop := ts.map Lexeme.token = us.map Lexeme.token

namespace SameTokens

variable {ts us vs : List Lexeme} {t : Token} {s : Span}

theorem exists_cons (h : SameTokens ts (⟨t, s⟩ :: us)) :
    ∃ s' r, ts = ⟨t, s'⟩ :: r ∧ SameTokens r us := by
  obtain ⟨⟨_, s'⟩, r, rfl, rfl, more⟩ := List.map_eq_cons_iff.mp h
  exact ⟨s', r, rfl, more⟩

theorem exists_singleton (h : SameTokens ts [⟨t, s⟩]) : ∃ s', ts = [⟨t, s'⟩] := by
  obtain ⟨⟨_, s'⟩, rfl, rfl⟩ := List.map_eq_singleton_iff.mp h
  exact ⟨s', rfl⟩

theorem exists_append (h : SameTokens ts (us ++ vs)) :
    ∃ l r, ts = l ++ r ∧ SameTokens l us ∧ SameTokens r vs := by
  rw [SameTokens, List.map_append] at h
  exact List.map_eq_append_iff.mp h

end SameTokens

/-! ### Expressions -/

namespace Expr

variable {ts us : List Lexeme} {e f : Expr} {level : Level}

/-- The expression without the places of its parts. -/
def bare (e : Expr) : Expr := e.relocate .erase

theorem bare_withSpan (e : Expr) (s : Span) : (e.withSpan s).bare = e.bare := by
  cases e <;> rfl

/-- What is derived from lexemes is derived, with spans of its own, from the same tokens in other
places. -/
theorem Derives.transfer (h : Derives level us e) (same : SameTokens ts us) :
    ∃ f, Derives level ts f ∧ f.bare = e.bare := by
  -- Which rule applies depends on tokens alone, so each applies once more.
  induction h generalizing ts with
  | field =>
      obtain ⟨_, rfl⟩ := same.exists_singleton
      exact ⟨_, .field, rfl⟩
  | call =>
      obtain ⟨_, _, rfl, behindName⟩ := same.exists_cons
      obtain ⟨_, _, rfl, behindOpening⟩ := behindName.exists_cons
      obtain ⟨_, rfl⟩ := behindOpening.exists_singleton
      exact ⟨_, .call, rfl⟩
  | group _ ih =>
      obtain ⟨_, _, rfl, behind⟩ := same.exists_cons
      obtain ⟨_, _, rfl, inner, close⟩ := behind.exists_append
      obtain ⟨_, rfl⟩ := close.exists_singleton
      obtain ⟨g, derived, bare⟩ := ih inner
      exact ⟨_, .group derived, by rw [bare_withSpan, bare_withSpan, bare]⟩
  | primary _ ih =>
      obtain ⟨g, derived, bare⟩ := ih same
      exact ⟨g, .primary derived, bare⟩
  | operand _ ih =>
      obtain ⟨g, derived, bare⟩ := ih same
      exact ⟨g, .operand derived, bare⟩
  | chain _ ih =>
      obtain ⟨g, derived, bare⟩ := ih same
      exact ⟨g, .chain derived, bare⟩
  | closure _ ih =>
      obtain ⟨_, _, rfl, inner, star⟩ := same.exists_append
      obtain ⟨_, rfl⟩ := star.exists_singleton
      obtain ⟨g, derived, bare⟩ := ih inner
      exact ⟨_, .closure derived, congrArg (Expr.closure · .nowhere) bare⟩
  | @restrict _ _ asset _ _ _ _ ih =>
      obtain ⟨_, _, rfl, inner, suffix⟩ := same.exists_append
      obtain ⟨_, _, rfl, behindOpening⟩ := suffix.exists_cons
      obtain ⟨_, _, rfl, behindName⟩ := behindOpening.exists_cons
      obtain ⟨_, rfl⟩ := behindName.exists_singleton
      obtain ⟨g, derived, bare⟩ := ih inner
      exact ⟨_, .restrict derived, congrArg (Expr.restrict · ⟨asset, .nowhere⟩ .nowhere) bare⟩
  | collect _ _ ihl ihr =>
      obtain ⟨_, _, rfl, left, right⟩ := same.exists_append
      obtain ⟨_, _, rfl, behindDot⟩ := right.exists_cons
      obtain ⟨g, lhs, bare⟩ := ihl left
      obtain ⟨k, rhs, bare'⟩ := ihr behindDot
      exact ⟨_, .collect lhs rhs, congrArg₂ (Expr.collect · · .nowhere) bare bare'⟩
  | @combine _ _ _ _ op l hop _ _ ihl ihr =>
      obtain ⟨_, _, rfl, left, right⟩ := same.exists_append
      obtain ⟨s, _, rfl, behindOp⟩ := right.exists_cons
      obtain ⟨g, lhs, bare⟩ := ihl left
      obtain ⟨k, rhs, bare'⟩ := ihr behindOp
      exact ⟨_, .combine (l := ⟨l.token, s⟩) hop lhs rhs,
        congrArg₂ (Expr.combine op · · .nowhere) bare bare'⟩

theorem ends_nil : Ends [] := ⟨fun _ _ _ => by simp, by simp⟩

/-- A derived phrase is read to its end where nothing follows. -/
theorem Derives.reads_all (h : Derives .sum ts e) (eof : Span) : Reads (read eof ts) e [] := by
  have read : Reads (Expr.read eof (ts ++ [])) e [] := h.reads ends_nil
  rwa [List.append_nil] at read

theorem Derives.eq_of_same (h : Derives .sum ts e) (h' : Derives .sum ts f) : e = f :=
  ((h.reads_all .nowhere).unique (h'.reads_all .nowhere)).1

/-- Equal tokens derive expressions that differ in their places only. -/
theorem Derives.bare_eq (h : Derives .sum ts e) (h' : Derives .sum us f)
    (same : SameTokens ts us) : e.bare = f.bare := by
  obtain ⟨g, derived, bare⟩ := h'.transfer same
  calc e.bare
    _ = g.bare := congrArg Expr.bare (h.eq_of_same derived)
    _ = f.bare := bare

/-- The reader of expressions yields what it consumes derives, and reads whatever is derived up to
where it ends. What is derived depends on tokens alone, and equal tokens derive one expression. -/
theorem expression_grammar_exact :
    (∀ ⦃eof ts e rest⦄, Reads (read eof ts) e rest →
      ∃ us, ts = us ++ rest ∧ Derives .sum us e) ∧
    (∀ ⦃eof ts e rest⦄, Derives .sum ts e → Ends rest → Reads (read eof (ts ++ rest)) e rest) ∧
    (∀ ⦃ts us e⦄, Derives .sum us e → SameTokens ts us →
      ∃ f, Derives .sum ts f ∧ f.bare = e.bare) ∧
    ∀ ⦃ts us e f⦄, Derives .sum ts e → Derives .sum us f → SameTokens ts us → e.bare = f.bare :=
  ⟨fun _ _ _ _ read => takes_read read, fun _ _ _ _ derived ends => derived.reads ends,
    fun _ _ _ derived same => derived.transfer same,
    fun _ _ _ _ derived derived' same => derived.bare_eq derived' same⟩

/-! ### The difference of a chain and a name -/

namespace HostsWithout

/-- `a.b* - c` -/
def phrase : List Lexeme :=
  [⟨.ident "a", ⟨0, 1, 1⟩⟩, ⟨.sign .dot, ⟨1, 2, 1⟩⟩, ⟨.ident "b", ⟨2, 3, 1⟩⟩,
    ⟨.sign .star, ⟨3, 4, 1⟩⟩, ⟨.sign .minus, ⟨5, 6, 1⟩⟩, ⟨.ident "c", ⟨7, 8, 1⟩⟩]

def expr : Expr :=
  .combine .difference
    (.collect (.field ⟨"a", ⟨0, 1, 1⟩⟩ ⟨0, 1, 1⟩)
      (.closure (.field ⟨"b", ⟨2, 3, 1⟩⟩ ⟨2, 3, 1⟩) ⟨2, 4, 1⟩) ⟨0, 4, 1⟩)
    (.field ⟨"c", ⟨7, 8, 1⟩⟩ ⟨7, 8, 1⟩) ⟨0, 8, 1⟩

/-- A second expression of the same clause, behind a comma. -/
def following : List Lexeme := [⟨.sign .comma, ⟨8, 9, 1⟩⟩, ⟨.ident "d", ⟨10, 11, 1⟩⟩]

theorem derives_expr : Derives .sum phrase expr :=
  .combine (l := ⟨.sign .minus, ⟨5, 6, 1⟩⟩) rfl
    (.chain (.collect (.operand (.primary .field)) (.closure (.primary .field))))
    (.operand (.primary .field))

end HostsWithout

open HostsWithout in
/-- The suffix belongs to the last name of the chain, and the chain to the left of the operator. -/
theorem reads_hostsWithout :
    Derives .sum phrase expr ∧ Ends following ∧
      Reads (read .nowhere (phrase ++ following)) expr following := by
  have ends : Ends following := ends_comma
  have read : Reads (read .nowhere (phrase ++ following)) expr following :=
    expression_grammar_exact.2.1 derives_expr ends
  exact ⟨derives_expr, ends, read⟩

end Expr

/-! ### Times -/

theorem Decimal.isSome_value? {w : String} {f : Option String} (whole : isNumeral w.toList)
    (fraction : ∀ d ∈ f, isNumeral d.toList) : (value? w f).isSome := by
  have digits : f.all fun d => isNumeral d.toList := by
    cases f with
    | none => rfl
    | some d => exact fraction d rfl
  simp [value?, whole, digits]

namespace Ttc

variable {ts : List Lexeme} {t u : Ttc} {trailing : Prop}

theorem ends_nil (ts : List Lexeme) : Ends ts [] := ⟨detached_of_avoids (by simp), by simp⟩

/-- A derived phrase is read to its end where nothing follows. -/
theorem Derives.reads_all (h : Derives trailing .sum ts t) (eof : Span) :
    Reads (read eof ts) t [] := by
  have read : Reads (Ttc.read eof (ts ++ [])) t [] := h.reads (ends_nil ts)
  rwa [List.append_nil] at read

/-- The reader of times yields what it consumes derives, where a comma is allowed behind the last
parameter of a distribution, and reads whatever is derived up to where it ends. Lexemes derive one
time, and digits with or without a fraction always have a value. -/
theorem time_grammar_exact :
    (∀ ⦃eof ts t rest⦄, Reads (read eof ts) t rest →
      ∃ us, ts = us ++ rest ∧ Derives True .sum us t) ∧
    (∀ ⦃eof ts t rest⦄, Derives True .sum ts t → Ends ts rest →
      Reads (read eof (ts ++ rest)) t rest) ∧
    (∀ ⦃ts t u⦄, Derives True .sum ts t → Derives True .sum ts u → t = u) ∧
    ∀ ⦃w f⦄, Decimal.isNumeral w.toList → (∀ d ∈ f, Decimal.isNumeral d.toList) →
      (Decimal.value? w f).isSome :=
  ⟨fun _ _ _ _ read => derives_of_reads (fun _ => trivial) read,
    fun _ _ _ _ derived ends => derived.reads ends,
    fun _ _ _ derived derived' =>
      ((derived.reads_all .nowhere).unique (derived'.reads_all .nowhere)).1,
    fun _ _ whole fraction => Decimal.isSome_value? whole fraction⟩

/-! ### Powers of a distribution -/

namespace ChainedPowers

/-- `Gamma(-1,) ^ 1.5 ^ 2 - 3` -/
def phrase : List Lexeme :=
  [⟨.ident "Gamma", ⟨0, 5, 1⟩⟩, ⟨.sign .lparen, ⟨5, 6, 1⟩⟩, ⟨.sign .minus, ⟨6, 7, 1⟩⟩,
    ⟨.integer "1", ⟨7, 8, 1⟩⟩, ⟨.sign .comma, ⟨8, 9, 1⟩⟩, ⟨.sign .rparen, ⟨9, 10, 1⟩⟩,
    ⟨.sign .caret, ⟨11, 12, 1⟩⟩, ⟨.integer "1", ⟨13, 14, 1⟩⟩, ⟨.sign .dot, ⟨14, 15, 1⟩⟩,
    ⟨.integer "5", ⟨15, 16, 1⟩⟩, ⟨.sign .caret, ⟨17, 18, 1⟩⟩, ⟨.integer "2", ⟨19, 20, 1⟩⟩,
    ⟨.sign .minus, ⟨21, 22, 1⟩⟩, ⟨.integer "3", ⟨23, 24, 1⟩⟩]

/-- The time with these values of `1`, `1.5`, `2` and `3`. -/
def time (a b c d : Float) : Ttc :=
  .binary .sub
    (.binary .pow (.distribution ⟨"Gamma", ⟨0, 5, 1⟩⟩ [-a] ⟨0, 10, 1⟩)
      (.binary .pow (.number b ⟨13, 16, 1⟩) (.number c ⟨19, 20, 1⟩) ⟨13, 20, 1⟩) ⟨0, 20, 1⟩)
    (.number d ⟨23, 24, 1⟩) ⟨0, 24, 1⟩

/-- The bracket that closes the time of a step. -/
def following : List Lexeme := [⟨.sign .rbracket, ⟨24, 25, 1⟩⟩]

theorem exists_derives_time : ∃ a b c d, Derives True .sum phrase (time a b c d) := by
  obtain ⟨a, ha⟩ := Option.isSome_iff_exists.mp
    (Decimal.isSome_value? (w := "1") (f := none) (by decide) (by simp))
  obtain ⟨b, hb⟩ := Option.isSome_iff_exists.mp
    (Decimal.isSome_value? (w := "1") (f := some "5") (by decide) (by simp; decide))
  obtain ⟨c, hc⟩ := Option.isSome_iff_exists.mp
    (Decimal.isSome_value? (w := "2") (f := none) (by decide) (by simp))
  obtain ⟨d, hd⟩ := Option.isSome_iff_exists.mp
    (Decimal.isSome_value? (w := "3") (f := none) (by decide) (by simp))
  have powers : Derives True .power (phrase.take 12) _ :=
    .raise (.applied (.closed trivial (.last (.negative (.whole ha)))))
      (.raise (.number (.fraction rfl rfl hb)) (.atom (.number (.whole hc))))
  exact ⟨a, b, c, d, .add (l := ⟨.sign .minus, ⟨21, 22, 1⟩⟩) rfl (.product (.power powers))
    (.power (.atom (.number (.whole hd))))⟩

end ChainedPowers

open ChainedPowers in
/-- The powers are taken from the right, and the difference last. -/
theorem reads_chainedPowers :
    ∃ a b c d, Derives True .sum phrase (time a b c d) ∧ Ends phrase following ∧
      Reads (read .nowhere (phrase ++ following)) (time a b c d) following := by
  obtain ⟨a, b, c, d, derived⟩ := exists_derives_time
  have ends : Ends phrase following := ⟨detached_of_avoids (by simp [following]), by
    simp [following]⟩
  have read : Reads (read .nowhere (phrase ++ following)) (time a b c d) following :=
    time_grammar_exact.2.1 derived ends
  exact ⟨a, b, c, d, derived, ends, read⟩

end Ttc

end MetaAttack
