import Mathlib.Data.List.Basic
import MetaAttack.Proofs.Reading
import MetaAttack.Spec.Ttc.Parser

/-!
# The grammar of times to compromise

`+` and `-` are left-associative and loosest, `*` and `/` left-associative and tighter, `^` is
right-associative and tightest. `Ttc.Derives` has one production for each way of writing a time, and
the reader of times reads whatever is derived.

## Implementation notes

Whether more belongs to a time depends on its last lexeme: only a bare name takes parameters, only
digits take a fraction. `Detached` says that what follows is neither.
-/

namespace MetaAttack

variable {ts us rest left : List Lexeme} {eof : Span} {v : Float}

/-- A number without a sign, with its span: digits, or digits, a dot and digits that touch. -/
inductive Numeral : Phrase (Float × Span)
  | whole {w : String} {s : Span} {v : Float} (value : Decimal.value? w none = some v) :
      Numeral [⟨.integer w, s⟩] (v, s)
  | fraction {w f : String} {s dot s' : Span} {v : Float} (hdot : dot.start = s.stop)
      (hs' : s'.start = dot.stop) (value : Decimal.value? w (some f) = some v) :
      Numeral [⟨.integer w, s⟩, ⟨.sign .dot, dot⟩, ⟨.integer f, s'⟩] (v, s.merge s')

/-- A number with an optional minus in front. -/
inductive SignedNumeral : Phrase Float
  | positive {ts : List Lexeme} {v : Float} {s : Span} (h : Numeral ts (v, s)) : SignedNumeral ts v
  | negative {ts : List Lexeme} {v : Float} {s minus : Span} (h : Numeral ts (v, s)) :
      SignedNumeral (⟨.sign .minus, minus⟩ :: ts) (-v)

/-- The lexemes do not continue a name or digits that end the phrase in front of them. -/
def Detached (ts rest : List Lexeme) : Prop :=
  ∀ l ∈ ts.getLast?,
    (∀ n, l.token = .ident n → Avoids [.lparen] rest) ∧
    (∀ w, l.token = .integer w → ∀ dot f s r,
      rest = ⟨.sign .dot, dot⟩ :: ⟨.integer f, s⟩ :: r →
        ¬ (dot.start = l.span.stop ∧ s.start = dot.stop))

/-- Where neither a parenthesis nor a dot follows, nothing can be drawn into the time. -/
theorem detached_of_avoids (h : Avoids [.lparen, .dot] rest) : Detached ts rest :=
  fun _ _ => ⟨fun _ _ => h.mono (by simp), fun _ _ _ _ _ _ same => absurd same (h.ne (by simp))⟩

/-- Only the last lexemes count. -/
theorem detached_append (h : us ≠ []) : Detached (ts ++ us) rest ↔ Detached us rest := by
  rw [Detached, List.getLast?_append_of_ne_nil _ h, Detached]

theorem detached_cons {l : Lexeme} (h : us ≠ []) : Detached (l :: us) rest ↔ Detached us rest := by
  rw [← List.singleton_append, detached_append h]

/-! ### Numbers -/

theorem numeral_of_value? {w : String} {f : Option String} {s : Span}
    (h : Decimal.value? w f = some v) : numeral w f s = .ok (v, s) := by
  rw [numeral, h]

/-- A number has lexemes. -/
theorem Numeral.ne_nil {p : Float × Span} (h : Numeral ts p) : ts ≠ [] := by
  cases h <;> simp

/-- A number is read where no fraction is attached to it. -/
theorem Numeral.reads {p : Float × Span} (h : Numeral ts p) (detached : Detached ts rest) :
    Reads (unsigned eof (ts ++ rest)) p rest := by
  cases h with
  | fraction hdot hs' value =>
      rw [List.cons_append, List.cons_append, List.cons_append, List.nil_append, unsigned,
        if_pos ⟨hdot, hs'⟩, numeral_of_value? value]
      exact .pure _
  | @whole w s v value =>
      rw [List.singleton_append]
      by_cases more : ∃ dot f s' r, rest = ⟨.sign .dot, dot⟩ :: ⟨.integer f, s'⟩ :: r
      · obtain ⟨dot, f, s', r, rfl⟩ := more
        have apart : ¬ (dot.start = s.stop ∧ s'.start = dot.stop) :=
          (detached _ rfl).2 _ rfl _ _ _ _ rfl
        rw [unsigned, if_neg apart, numeral_of_value? value]
        exact .pure _
      · rw [unsigned]
        · rw [numeral_of_value? value]
          exact .pure _
        · rintro dot f s' r rfl
          exact more ⟨_, _, _, _, rfl⟩

theorem SignedNumeral.avoids_rparen (h : SignedNumeral ts v) :
    Avoids [.rparen] (ts ++ rest) := by
  cases h with
  | positive h => cases h <;> simp
  | negative => simp

/-- A number is read with its sign, unless digits behind it would be drawn in. -/
theorem SignedNumeral.reads (h : SignedNumeral ts v) (detached : Detached ts rest) :
    Reads (signed eof (ts ++ rest)) v rest := by
  cases h with
  | negative h =>
      rw [detached_cons h.ne_nil] at detached
      rw [List.cons_append, signed]
      exact (h.reads detached).bind fun _ => .pure _
  | positive h =>
      have read : Reads (MetaAttack.unsigned eof (ts ++ rest)) (v, _) rest := h.reads detached
      have unsigned : ∀ s r, ts ++ rest ≠ ⟨.sign .minus, s⟩ :: r := by
        cases h <;> simp
      rw [signed]
      · exact read.bind fun _ => .pure _
      · exact fun s r => unsigned s r

theorem readsItem_signed : ReadsItem signed SignedNumeral .rparen where
  apart := by decide
  starts h := h.avoids_rparen
  reads h ht := h.reads (detached_of_avoids (by rcases ht with rfl | rfl <;> simp))

/-! ### Times -/

namespace Ttc

variable {t u : Ttc}

/-- How tightly a time holds together. -/
inductive Level
  | sum
  | product
  | power
  | atom

/-- What time the lexemes are, as one of the level. -/
inductive Derives (trailing : Prop) : Level → Phrase Ttc
  | number {ts : List Lexeme} {v : Float} {s : Span} (h : Numeral ts (v, s)) :
      Derives trailing .atom ts (.number v s)
  | bare {n : String} {s : Span} :
      Derives trailing .atom [⟨.ident n, s⟩] (.distribution ⟨n, s⟩ [] s)
  | applied {n : String} {s opening close : Span} {ts : List Lexeme} {vs : List Float}
      (params : CommaSeparated trailing SignedNumeral ts vs) :
      Derives trailing .atom
        (⟨.ident n, s⟩ :: ⟨.sign .lparen, opening⟩ :: ts ++ [⟨.sign .rparen, close⟩])
        (.distribution ⟨n, s⟩ vs (s.merge close))
  | group {ts : List Lexeme} {t : Ttc} {opening close : Span} (inner : Derives trailing .sum ts t) :
      Derives trailing .atom (⟨.sign .lparen, opening⟩ :: ts ++ [⟨.sign .rparen, close⟩])
        (t.withSpan (opening.merge close))
  | atom {ts : List Lexeme} {t : Ttc} (h : Derives trailing .atom ts t) :
      Derives trailing .power ts t
  | raise {ts us : List Lexeme} {t u : Ttc} {caret : Span} (base : Derives trailing .atom ts t)
      (exponent : Derives trailing .power us u) :
      Derives trailing .power (ts ++ ⟨.sign .caret, caret⟩ :: us) (combine .pow t u)
  | power {ts : List Lexeme} {t : Ttc} (h : Derives trailing .power ts t) :
      Derives trailing .product ts t
  | multiply {ts us : List Lexeme} {t u : Ttc} {op : TtcOp} {l : Lexeme}
      (hop : TtcOp.multiplicative? l.token = some op) (lhs : Derives trailing .product ts t)
      (rhs : Derives trailing .power us u) :
      Derives trailing .product (ts ++ l :: us) (combine op t u)
  | product {ts : List Lexeme} {t : Ttc} (h : Derives trailing .product ts t) :
      Derives trailing .sum ts t
  | add {ts us : List Lexeme} {t u : Ttc} {op : TtcOp} {l : Lexeme}
      (hop : TtcOp.additive? l.token = some op) (lhs : Derives trailing .sum ts t)
      (rhs : Derives trailing .product us u) :
      Derives trailing .sum (ts ++ l :: us) (combine op t u)

theorem Derives.ne_nil {trailing : Prop} {level : Level} (h : Derives trailing level ts t) :
    ts ≠ [] := by
  induction h with
  | number h => exact h.ne_nil
  | atom _ ih | power _ ih | product _ ih => exact ih
  | _ => simp

/-- Of the signs, only an opening parenthesis starts a time. -/
theorem Derives.opens {trailing : Prop} {level : Level} (h : Derives trailing level ts t) :
    Opens [.lparen] (ts ++ rest) := by
  induction h generalizing rest with
  | number h => cases h <;> simp
  | bare | applied | group => simp
  | atom _ ih | power _ ih | product _ ih => exact ih
  | raise _ _ ih _ | multiply _ _ _ ih _ | add _ _ _ ih _ =>
      rw [List.append_assoc]
      exact ih

namespace Level

/-- The signs that continue a time of a tighter level. -/
def inner : Level → List Sign
  | atom => []
  | power | product => [.caret]
  | sum => [.caret, .star, .slash]

/-- Reads a time of the level. -/
def read (eof : Span) (ts : List Lexeme) : Level → Except ParseError (Parsed Ttc ts.length)
  | sum => Ttc.read eof ts
  | product => Ttc.product eof ts
  | power => Ttc.power eof ts
  | atom => Ttc.atom eof ts

/-- Reads on, with a time of the level already read. -/
def resume (eof : Span) (t : Ttc) (ts : List Lexeme) :
    Level → Except ParseError (Parsed Ttc (ts.length + 1))
  | sum => addends eof t ts
  | product => factors eof t ts
  | power | atom => .ok (.leaving t ts)

/-- The reader of the level takes the lexemes for the time and goes on behind them. -/
def Handles (level : Level) (eof : Span) (ts : List Lexeme) (t : Ttc) : Prop :=
  ∀ ⦃rest : List Lexeme⦄ ⦃u : Ttc⦄ ⦃left : List Lexeme⦄, Detached ts rest →
    Avoids level.inner rest → Reads (level.resume eof t rest) u left →
      Reads (level.read eof (ts ++ rest)) u left

end Level

/-- None of the signs that continue a time comes first, nor does what continues its last lexeme. -/
structure Ends (ts rest : List Lexeme) : Prop where
  detached : Detached ts rest
  avoids : Avoids [.caret, .star, .slash, .plus, .minus] rest

theorem additive?_of_ne {t : Token} (h : ∀ s ∈ [Sign.plus, .minus], t ≠ .sign s) :
    TtcOp.additive? t = none := by
  unfold TtcOp.additive?
  split <;> simp_all

theorem multiplicative?_of_ne {t : Token} (h : ∀ s ∈ [Sign.star, .slash], t ≠ .sign s) :
    TtcOp.multiplicative? t = none := by
  unfold TtcOp.multiplicative?
  split <;> simp_all

theorem addends_of_avoids (h : Avoids [.plus, .minus] ts) :
    addends eof t ts = .ok (.leaving t ts) := by
  cases ts with
  | nil =>
      rw [addends]
      rfl
  | cons l r =>
      rw [addends, additive?_of_ne (avoids_cons.mp h)]
      rfl

theorem factors_of_avoids (h : Avoids [.star, .slash] ts) :
    factors eof t ts = .ok (.leaving t ts) := by
  cases ts with
  | nil =>
      rw [factors]
      rfl
  | cons l r =>
      rw [factors, multiplicative?_of_ne (avoids_cons.mp h)]
      rfl

/-- An operator of a sum or a product detaches what is in front of it and has no other meaning. -/
theorem avoids_of_additive? {l : Lexeme} {op : TtcOp} (h : TtcOp.additive? l.token = some op) :
    Avoids [.lparen, .dot, .caret, .star, .slash] (l :: rest) := by
  rw [avoids_cons]
  intro s hs hl
  rw [hl] at h
  simp only [List.mem_cons, List.not_mem_nil, or_false] at hs
  rcases hs with rfl | rfl | rfl | rfl | rfl <;> cases h

/-- A factor ends where an operator begins. -/
theorem avoids_of_multiplicative? {l : Lexeme} {op : TtcOp}
    (h : TtcOp.multiplicative? l.token = some op) :
    Avoids [.lparen, .dot, .caret] (l :: rest) := by
  rw [avoids_cons]
  intro s hs hl
  rw [hl] at h
  simp only [List.mem_cons, List.not_mem_nil, or_false] at hs
  rcases hs with rfl | rfl | rfl <;> cases h

/-! ### Completeness -/

namespace Level.Handles

theorem atom (h : Level.atom.Handles eof ts t) (detached : Detached ts rest) :
    Reads (Ttc.atom eof (ts ++ rest)) t rest :=
  h detached (avoids_none rest) (.pure _)

/-- One level after another: what a level leaves over is what the next one looks at. -/
theorem power (h : Level.power.Handles eof ts t) (detached : Detached ts rest)
    (avoids : Avoids [.caret] rest) : Reads (Ttc.power eof (ts ++ rest)) t rest :=
  h detached avoids (.pure _)

theorem product (h : Level.product.Handles eof ts t) (detached : Detached ts rest)
    (avoids : Avoids [.caret, .star, .slash] rest) :
    Reads (Ttc.product eof (ts ++ rest)) t rest := by
  refine h detached (avoids.mono (by simp [inner])) ?_
  rw [resume, factors_of_avoids (avoids.mono (by simp))]
  exact .pure _

end Level.Handles

/-- A name without a parenthesis behind it is a distribution without parameters. -/
theorem reads_bare {n : String} {s : Span} (h : Avoids [.lparen] rest) :
    Reads (atom eof (⟨.ident n, s⟩ :: rest)) (.distribution ⟨n, s⟩ [] s) rest := by
  rw [atom, parameters]
  · exact .pure _
  · rintro s r rfl
    exact h.ne (by simp) rfl

theorem reads_numeral {s : Span} (h : Numeral ts (v, s)) (detached : Detached ts rest) :
    Reads (atom eof (ts ++ rest)) (.number v s) rest := by
  have read : Reads (unsigned eof (ts ++ rest)) (v, s) rest := h.reads detached
  cases h with
  | whole | fraction =>
      rw [List.cons_append] at read ⊢
      rw [atom]
      exact read.bind fun _ => .pure _

/-- The reader of a level takes what is derived on the level for what it is. -/
theorem Derives.handles {trailing : Prop} {level : Level} (h : Derives trailing level ts t) :
    level.Handles eof ts t := by
  induction h with
  | number h =>
      intro rest u left detached _ next
      obtain ⟨_, next⟩ := next
      cases next
      exact reads_numeral h detached
  | bare =>
      intro rest u left detached _ next
      obtain ⟨_, next⟩ := next
      cases next
      exact reads_bare ((detached _ rfl).1 _ rfl)
  | applied params =>
      intro rest u left _ _ next
      obtain ⟨_, next⟩ := next
      cases next
      change Reads (Ttc.atom eof _) _ _
      rw [List.cons_append, List.cons_append, List.cons_append, List.cons_append, List.append_assoc,
        List.singleton_append, Ttc.atom, parameters]
      exact (params.reads readsItem_signed).bind fun _ => (reads_sign ..).bind fun _ => .pure _
  | @group ts t opening close _ ih =>
      intro rest u left _ _ next
      obtain ⟨_, next⟩ := next
      cases next
      have inner : Reads (Ttc.read eof (ts ++ ⟨.sign .rparen, close⟩ :: rest)) t
          (⟨.sign .rparen, close⟩ :: rest) := by
        refine ih (detached_of_avoids (by simp)) (by simp [Level.inner]) ?_
        rw [Level.resume, addends_of_avoids (by simp)]
        exact .pure _
      change Reads (Ttc.atom eof _) _ _
      rw [List.append_assoc, List.cons_append, List.singleton_append, Ttc.atom]
      exact inner.bind fun _ => (reads_sign ..).bind fun _ => .pure _
  | atom _ ih =>
      intro rest u left detached avoids next
      obtain ⟨_, next⟩ := next
      cases next
      change Reads (Ttc.power eof _) _ _
      rw [Ttc.power]
      refine (ih.atom detached).bind fun _ => ?_
      dsimp only
      rw [sign?_of_avoids avoids List.mem_cons_self]
      exact .pure _
  | raise _ exponent ihb ihe =>
      intro rest u left detached avoids next
      obtain ⟨_, next⟩ := next
      cases next
      rw [detached_append (by simp), detached_cons exponent.ne_nil] at detached
      change Reads (Ttc.power eof _) _ _
      rw [List.append_assoc, List.cons_append, Ttc.power]
      refine (ihb.atom (detached_of_avoids (by simp))).bind fun _ => ?_
      dsimp only
      rw [sign?_self]
      exact (ihe.power detached avoids).bind fun _ => .pure _
  | power _ ih =>
      intro rest u left detached avoids next
      change Reads (Ttc.product eof _) u left
      rw [Ttc.product]
      exact (ih.power detached avoids).bind fun _ => next.bind fun _ => .pure _
  | @multiply _ us _ _ _ _ hop _ rhs ihl ihr =>
      intro rest v left detached avoids next
      rw [detached_append (by simp), detached_cons rhs.ne_nil] at detached
      have apart : Avoids [.lparen, .dot, .caret] (_ :: (us ++ rest)) :=
        avoids_of_multiplicative? hop
      rw [List.append_assoc, List.cons_append]
      refine ihl (detached_of_avoids (apart.mono (by simp))) (apart.mono (by simp [Level.inner])) ?_
      rw [Level.resume, factors, hop]
      exact (ihr.power detached avoids).bind fun _ => next.bind fun _ => .pure _
  | product _ ih =>
      intro rest u left detached avoids next
      change Reads (Ttc.read eof _) u left
      rw [Ttc.read]
      exact (ih.product detached avoids).bind fun _ => next.bind fun _ => .pure _
  | @add _ us _ _ _ _ hop _ rhs ihl ihr =>
      intro rest v left detached avoids next
      rw [detached_append (by simp), detached_cons rhs.ne_nil] at detached
      have apart : Avoids [.lparen, .dot, .caret, .star, .slash] (_ :: (us ++ rest)) :=
        avoids_of_additive? hop
      rw [List.append_assoc, List.cons_append]
      refine ihl (detached_of_avoids (apart.mono (by simp))) (apart.mono (by simp [Level.inner])) ?_
      rw [Level.resume, addends, hop]
      exact (ihr.product detached avoids).bind fun _ => next.bind fun _ => .pure _

/-- A time is read up to where it ends. -/
theorem Derives.reads {trailing : Prop} (h : Derives trailing .sum ts t) (ends : Ends ts rest) :
    Reads (read eof (ts ++ rest)) t rest := by
  refine h.handles ends.detached (ends.avoids.mono (by simp [Level.inner])) ?_
  rw [Level.resume, addends_of_avoids (ends.avoids.mono (by simp))]
  exact .pure _

end Ttc

end MetaAttack
