import MetaAttack.Proofs.Consuming
import MetaAttack.Proofs.ExprGrammar
import MetaAttack.Proofs.TtcGrammar

/-!
# Expressions and times that are read

The readers of expressions and of times to compromise yield nothing but what the lexemes that they
consume derive. Operators are applied from left to right to what was read so far, so the statement
for the second half of each level is that reading on extends the phrase that is in hand.
-/

namespace MetaAttack

variable {ts us rest left : List Lexeme} {eof : Span}

/-! ### Expressions -/

namespace Expr

variable {e f : Expr}

namespace Level

/-- What the reader of the level yields is derived from what it consumes. -/
def Consumes (level : Level) (eof : Span) (ts : List Lexeme) : Prop :=
  ∀ ⦃e rest⦄, Reads (level.read eof ts) e rest → ∃ us, ts = us ++ rest ∧ Derives level us e

/-- Reading on extends the phrase of the expression that was read. -/
def Extends (level : Level) (eof : Span) (e : Expr) (ts : List Lexeme) : Prop :=
  ∀ ⦃us f rest⦄, Derives level us e → Reads (level.resume eof e ts) f rest →
    ∃ vs, ts = vs ++ rest ∧ Derives level (us ++ vs) f

variable {level : Level}

theorem consumes_of_error {err : ParseError} (h : level.read eof ts = .error err) :
    level.Consumes eof ts := by
  intro e rest read
  rw [h] at read
  exact absurd read Reads.not_error

theorem extends_of_leaving (h : level.resume eof e ts = .ok (.leaving e ts)) :
    level.Extends eof e ts := by
  intro us f rest derived read
  rw [h] at read
  obtain ⟨rfl, rfl⟩ : e = f ∧ ts = rest := read.of_pure
  exact ⟨[], rfl, by rwa [List.append_nil]⟩

/-- A phrase that was read and what it is extended by are one phrase. -/
theorem Extends.front (h : level.Extends eof e ts) (derived : Derives level us e)
    (read : Reads (level.resume eof e ts) f rest) :
    ∃ vs, us ++ ts = vs ++ rest ∧ Derives level vs f := by
  obtain ⟨vs, rfl, extended⟩ := h derived read
  exact ⟨us ++ vs, (List.append_assoc ..).symm, extended⟩

variable {tighter : Level}

/-- A level that begins with the tighter one consumes what this consumes and what extends it. -/
theorem consumes_of_first
    (reads : level.read eof ts = tighter.read eof ts >>= fun p =>
      level.resume eof p.value p.rest >>= fun q => .ok (p.beforeAny q))
    (looser : ∀ {us e}, Derives tighter us e → Derives level us e)
    (first : tighter.Consumes eof ts)
    (more : ∀ p : Parsed Expr ts.length, level.Extends eof p.value p.rest) :
    level.Consumes eof ts := by
  intro f rest h
  rw [reads] at h
  obtain ⟨e, r, lt, start, h⟩ := h.of_bind
  obtain ⟨us, rfl, derived⟩ := first start
  exact (more ⟨e, r, lt⟩).front (looser derived) (h.of_recount fun _ => ⟨rfl, rfl⟩)

/-- An operator with its right operand extends the phrase, and so does what is read behind it. -/
theorem extends_of_operator {l : Lexeme} {join : Expr → Expr}
    (resumes : level.resume eof e (l :: ts) = tighter.read eof ts >>= fun p =>
      level.resume eof (join p.value) p.rest >>= fun q => .ok ((p.beforeAny q).behind 2))
    (joined : ∀ {us vs right}, Derives level us e → Derives tighter vs right →
      Derives level (us ++ l :: vs) (join right))
    (second : tighter.Consumes eof ts)
    (more : ∀ p : Parsed Expr ts.length, level.Extends eof (join p.value) p.rest) :
    level.Extends eof e (l :: ts) := by
  intro us f rest derived h
  rw [resumes] at h
  obtain ⟨right, r, lt, operand, h⟩ := h.of_bind
  obtain ⟨vs, rfl, derived'⟩ := second operand
  obtain ⟨ws, rfl, extended⟩ :=
    more ⟨right, r, lt⟩ (joined derived derived') (h.of_recount fun _ => ⟨rfl, rfl⟩)
  refine ⟨l :: vs ++ ws, (List.append_assoc (l :: vs) ws rest).symm, ?_⟩
  rwa [List.append_assoc] at extended

end Level

theorem suffixes_extends (eof : Span) (e : Expr) (ts : List Lexeme) :
    Level.operand.Extends eof e ts := by
  induction e, ts using suffixes.induct with
  | case1 e s r ih =>
      intro us f rest derived h
      change Reads (suffixes eof e _) f rest at h
      rw [suffixes] at h
      obtain ⟨g, r', _, more, h⟩ := h.of_bind
      obtain ⟨rfl, rfl⟩ : g = f ∧ r' = rest := h.of_pure
      obtain ⟨vs, rfl, extended⟩ := ih (.closure derived) more
      refine ⟨⟨.sign .star, s⟩ :: vs, rfl, ?_⟩
      rwa [List.append_assoc] at extended
  | case2 e s r ih =>
      intro us f rest derived h
      change Reads (suffixes eof e _) f rest at h
      rw [suffixes] at h
      obtain ⟨asset, r₁, lt, hasset, h⟩ := h.of_bind
      obtain ⟨close, r₂, lt', hclose, h⟩ := h.of_bind
      obtain ⟨g, r', _, more, h⟩ := h.of_bind
      obtain ⟨rfl, rfl⟩ : g = f ∧ r' = rest := h.of_pure
      obtain ⟨vs, rfl, extended⟩ := ih ⟨asset, r₁, lt⟩ ⟨close, r₂, lt'⟩ (.restrict derived) more
      obtain rfl := of_reads_sign hclose
      obtain rfl := of_reads_ident hasset
      refine ⟨⟨.sign .lbracket, s⟩ :: ⟨.ident asset.name, asset.span⟩ ::
        ⟨.sign .rbracket, close⟩ :: vs, rfl, ?_⟩
      rwa [List.append_assoc] at extended
  | case3 e ts noStar noBracket =>
      apply Level.extends_of_leaving
      rw [Level.resume, suffixes]
      · rfl
      · exact noStar
      · exact noBracket

theorem consumes_group {s : Span} (inner : Level.sum.Consumes eof ts) :
    Level.primary.Consumes eof (⟨.sign .lparen, s⟩ :: ts) := by
  intro f rest h
  change Reads (Expr.primary eof _) f rest at h
  rw [Expr.primary] at h
  obtain ⟨e, r, lt, read, h⟩ := h.of_bind
  obtain ⟨close, r', _, hclose, h⟩ := h.of_bind
  obtain ⟨rfl, rfl⟩ : e.withSpan (s.merge close) = f ∧ r' = rest := h.of_pure
  obtain ⟨us, rfl, derived⟩ := inner read
  obtain rfl := of_reads_sign hclose
  exact ⟨_, by simp, .group derived⟩

theorem consumes_call {n : String} {s opening close : Span} :
    Level.primary.Consumes eof (⟨.ident n, s⟩ :: ⟨.sign .lparen, opening⟩ ::
      ⟨.sign .rparen, close⟩ :: ts) := by
  intro f rest h
  change Reads (Expr.primary eof _) f rest at h
  rw [Expr.primary] at h
  obtain ⟨rfl, rfl⟩ : Expr.call ⟨n, s⟩ (s.merge close) = f ∧ ts = rest := h.of_pure
  exact ⟨_, rfl, .call⟩

theorem consumes_field {n : String} {s : Span} (uncalled : Uncalled ts) :
    Level.primary.Consumes eof (⟨.ident n, s⟩ :: ts) := by
  intro f rest h
  change Reads (Expr.primary eof _) f rest at h
  rw [Expr.primary] at h
  · obtain ⟨rfl, rfl⟩ : Expr.field ⟨n, s⟩ s = f ∧ ts = rest := h.of_pure
    exact ⟨_, rfl, .field⟩
  · exact uncalled

/-- The readers of all levels yield what is derived. -/
theorem reader_consumes (eof : Span) :
    (∀ ts, Level.sum.Consumes eof ts) ∧ (∀ e ts, Level.sum.Extends eof e ts) ∧
      (∀ ts, Level.chain.Consumes eof ts) ∧ (∀ e ts, Level.chain.Extends eof e ts) ∧
      (∀ ts, Level.operand.Consumes eof ts) ∧ (∀ ts, Level.primary.Consumes eof ts) := by
  -- The cases are the clauses of the readers, from loose to tight.
  apply read.mutual_induct
  case case1 =>
    intro ts ih more
    refine Level.consumes_of_first ?_ .chain ih more
    rw [Level.read, Expr.read]
    rfl
  case case2 =>
    intro e
    apply Level.extends_of_leaving
    rw [Level.resume, operands]
    rfl
  case case3 =>
    intro e l r op hop ih more
    refine Level.extends_of_operator ?_ (.combine hop) ih more
    rw [Level.resume, operands, hop]
    rfl
  case case4 =>
    intro e l r hop
    apply Level.extends_of_leaving
    rw [Level.resume, operands, hop]
    rfl
  case case5 =>
    intro ts ih more
    refine Level.consumes_of_first ?_ .operand ih more
    rw [Level.read, Expr.chain]
    rfl
  case case6 =>
    intro e dot r ih more
    refine Level.extends_of_operator ?_ .collect ih more
    rw [Level.resume, links]
    rfl
  case case7 =>
    intro e ts noDot
    apply Level.extends_of_leaving
    rw [Level.resume, links]
    · rfl
    · exact noDot
  case case8 =>
    intro ts ih
    refine Level.consumes_of_first ?_ .primary ih fun p => suffixes_extends eof p.value p.rest
    rw [Level.read, Expr.operand]
    rfl
  case case9 => exact fun s r ih => consumes_group ih
  case case10 => exact fun n s opening close r => consumes_call
  case case11 => exact fun n s r uncalled => consumes_field uncalled
  case case12 =>
    intro l r noGroup noCall noName
    apply Level.consumes_of_error
    rw [Level.read, Expr.primary]
    · exact noGroup
    · exact noCall
    · exact noName
  case case13 =>
    apply Level.consumes_of_error
    rw [Level.read, Expr.primary]

/-- An expression that is read is derived from what is consumed. -/
theorem takes_read : Takes read (Derives .sum) := fun eof ts _ _ h => (reader_consumes eof).1 ts h

theorem takes_readList : Takes readList (Listed (Derives .sum)) := by
  intro eof ts es rest h
  induction ts using readList.induct generalizing es with
  | case1 ts ih =>
      rw [readList] at h
      obtain ⟨e, r, lt, first, h⟩ := h.of_bind
      obtain ⟨us, rfl, derived⟩ := takes_read first
      dsimp only at h
      split at h
      · next comma hcomma =>
        obtain ⟨es', r', _, all, h⟩ := h.of_bind
        obtain ⟨rfl, rfl⟩ : e :: es' = es ∧ r' = rest := h.of_pure
        obtain ⟨vs, hvs, listed⟩ := ih ⟨e, r, lt⟩ comma all
        refine ⟨us ++ ⟨.sign .comma, comma.value⟩ :: vs, ?_, .cons derived listed⟩
        rw [List.append_assoc, List.cons_append, ← hvs, ← of_sign? hcomma]
      · obtain ⟨rfl, rfl⟩ : [e] = es ∧ r = rest := h.of_pure
        exact ⟨us, rfl, .last derived⟩

end Expr

/-! ### Numbers -/

theorem value?_of_numeral {w : String} {f : Option String} {s : Span} {p : Float × Span}
    (h : numeral w f s = .ok p) : Decimal.value? w f = some p.1 ∧ s = p.2 := by
  rw [numeral] at h
  split at h
  · next v hv =>
    cases h
    exact ⟨hv, rfl⟩
  · cases h

/-- The value of a numeral is read where the numeral has one. -/
theorem of_reads_numeral {α : Type} {n : Nat} {w : String} {f : Option String} {s : Span}
    {g : Float × Span → Except ParseError (Parsed α n)} {a : α}
    (h : Reads (numeral w f s >>= g) a rest) :
    ∃ v, Decimal.value? w f = some v ∧ Reads (g (v, s)) a rest := by
  cases hp : numeral w f s with
  | error e =>
      rw [hp] at h
      exact absurd h Reads.not_error
  | ok p =>
      rw [hp] at h
      obtain ⟨hv, rfl⟩ := value?_of_numeral hp
      exact ⟨p.1, hv, h⟩

theorem takes_unsigned : Takes unsigned Numeral := by
  intro eof ts p rest h
  rw [unsigned.eq_def] at h
  split at h
  · next w s dot f s' r =>
    split at h
    · next touching =>
      obtain ⟨v, hv, h⟩ := of_reads_numeral h
      obtain ⟨rfl, rfl⟩ : (v, s.merge s') = p ∧ r = rest := h.of_pure
      exact ⟨_, rfl, .fraction touching.1 touching.2 hv⟩
    · obtain ⟨v, hv, h⟩ := of_reads_numeral h
      obtain ⟨rfl, rfl⟩ := h.of_pure
      exact ⟨[_], rfl, .whole hv⟩
  · next w s r _ =>
    obtain ⟨v, hv, h⟩ := of_reads_numeral h
    obtain ⟨rfl, rfl⟩ : (v, s) = p ∧ r = rest := h.of_pure
    exact ⟨[_], rfl, .whole hv⟩
  · exact absurd h Reads.not_error
  · exact absurd h Reads.not_error

theorem takes_signed : Takes signed SignedNumeral := by
  intro eof ts v rest h
  rw [signed.eq_def] at h
  split at h
  · next s r =>
    obtain ⟨p, r', _, number, h⟩ := h.of_bind
    obtain ⟨rfl, rfl⟩ : -p.1 = v ∧ r' = rest := h.of_pure
    obtain ⟨us, rfl, numeral⟩ := takes_unsigned number
    exact ⟨⟨.sign .minus, s⟩ :: us, rfl, .negative numeral⟩
  · obtain ⟨p, r', _, number, h⟩ := h.of_bind
    obtain ⟨rfl, rfl⟩ : p.1 = v ∧ r' = rest := h.of_pure
    obtain ⟨us, rfl, numeral⟩ := takes_unsigned number
    exact ⟨us, rfl, .positive numeral⟩

/-! ### Times -/

namespace Ttc

variable {t u : Ttc} {trailing : Prop}

namespace Level

/-- What the reader of the level yields is derived from what it consumes. -/
def Consumes (trailing : Prop) (level : Level) (eof : Span) (ts : List Lexeme) : Prop :=
  (TrailingComma ts → trailing) → ∀ ⦃t rest⦄, Reads (level.read eof ts) t rest →
    ∃ us, ts = us ++ rest ∧ Derives trailing level us t

/-- Reading on extends the phrase of the time that was read. -/
def Extends (trailing : Prop) (level : Level) (eof : Span) (t : Ttc) (ts : List Lexeme) : Prop :=
  (TrailingComma ts → trailing) → ∀ ⦃us u rest⦄, Derives trailing level us t →
    Reads (level.resume eof t ts) u rest →
      ∃ vs, ts = vs ++ rest ∧ Derives trailing level (us ++ vs) u

variable {level : Level}

theorem consumes_of_error {err : ParseError} (h : level.read eof ts = .error err) :
    level.Consumes trailing eof ts := by
  intro _ t rest read
  rw [h] at read
  exact absurd read Reads.not_error

theorem extends_of_leaving (h : level.resume eof t ts = .ok (.leaving t ts)) :
    level.Extends trailing eof t ts := by
  intro _ us u rest derived read
  rw [h] at read
  obtain ⟨rfl, rfl⟩ : t = u ∧ ts = rest := read.of_pure
  exact ⟨[], rfl, by rwa [List.append_nil]⟩

theorem Extends.front (h : level.Extends trailing eof t ts)
    (allowed : TrailingComma (us ++ ts) → trailing) (derived : Derives trailing level us t)
    (read : Reads (level.resume eof t ts) u rest) :
    ∃ vs, us ++ ts = vs ++ rest ∧ Derives trailing level vs u := by
  obtain ⟨vs, rfl, extended⟩ := h (fun comma => allowed (comma.append_left us)) derived read
  exact ⟨us ++ vs, (List.append_assoc ..).symm, extended⟩

variable {tighter : Level}

/-- A level that begins with the tighter one consumes what this consumes and what extends it. -/
theorem consumes_of_first
    (reads : level.read eof ts = tighter.read eof ts >>= fun p =>
      level.resume eof p.value p.rest >>= fun q => .ok (p.beforeAny q))
    (looser : ∀ {us t}, Derives trailing tighter us t → Derives trailing level us t)
    (first : tighter.Consumes trailing eof ts)
    (more : ∀ p : Parsed Ttc ts.length, level.Extends trailing eof p.value p.rest) :
    level.Consumes trailing eof ts := by
  intro allowed u rest h
  rw [reads] at h
  obtain ⟨t, r, lt, start, h⟩ := h.of_bind
  obtain ⟨us, rfl, derived⟩ := first allowed start
  exact (more ⟨t, r, lt⟩).front allowed (looser derived) (h.of_recount fun _ => ⟨rfl, rfl⟩)

/-- An operator with its right operand extends the phrase, and so does what is read behind it. -/
theorem extends_of_operator {l : Lexeme} {op : TtcOp}
    (resumes : level.resume eof t (l :: ts) = tighter.read eof ts >>= fun p =>
      level.resume eof (combine op t p.value) p.rest >>= fun q =>
        .ok ((p.beforeAny q).behind 2))
    (joined : ∀ {us vs right}, Derives trailing level us t → Derives trailing tighter vs right →
      Derives trailing level (us ++ l :: vs) (combine op t right))
    (second : tighter.Consumes trailing eof ts)
    (more : ∀ p : Parsed Ttc ts.length,
      level.Extends trailing eof (combine op t p.value) p.rest) :
    level.Extends trailing eof t (l :: ts) := by
  intro allowed us u rest derived h
  rw [resumes] at h
  obtain ⟨right, r, lt, operand, h⟩ := h.of_bind
  have allowed' := fun comma => allowed (TrailingComma.append_left comma [l])
  obtain ⟨vs, rfl, derived'⟩ := second allowed' operand
  obtain ⟨ws, rfl, extended⟩ :=
    more ⟨right, r, lt⟩ (fun comma => allowed' (comma.append_left vs)) (joined derived derived')
      (h.of_recount fun _ => ⟨rfl, rfl⟩)
  refine ⟨l :: vs ++ ws, (List.append_assoc (l :: vs) ws rest).symm, ?_⟩
  rwa [List.append_assoc] at extended

end Level

theorem parameters_extends {n : String} {s : Span}
    (allowed : TrailingComma ts → trailing) (h : Reads (parameters eof ⟨n, s⟩ ts) t rest) :
    ∃ us, ts = us ++ rest ∧ Derives trailing .atom (⟨.ident n, s⟩ :: us) t := by
  rw [parameters.eq_def] at h
  split at h
  · next opening r =>
    obtain ⟨vs, r₁, _, params, h⟩ := h.of_bind
    obtain ⟨close, r₂, _, hclose, h⟩ := h.of_bind
    obtain ⟨rfl, rfl⟩ : distribution ⟨n, s⟩ vs (s.merge close) = t ∧ r₂ = rest := h.of_pure
    obtain ⟨us, rfl, list⟩ := commaSeparated_of_reads takes_signed (by decide)
      (fun comma => allowed (comma.append_left [_])) params
    obtain rfl := of_reads_sign hclose
    let consumed : List Lexeme := ⟨.sign .lparen, opening⟩ :: us ++ [⟨.sign .rparen, close⟩]
    exact ⟨consumed, by simp [consumed], .applied list⟩
  · obtain ⟨rfl, rfl⟩ : distribution ⟨n, s⟩ [] s = t ∧ ts = rest := h.of_pure
    exact ⟨[], rfl, .bare⟩

/-- The exponent is read on the level of the power, so that `^` groups to the right. -/
theorem consumes_power (base : Level.atom.Consumes trailing eof ts)
    (exponent : ∀ (b : Parsed Ttc ts.length) (caret : Parsed Span b.rest.length),
      Level.power.Consumes trailing eof caret.rest) :
    Level.power.Consumes trailing eof ts := by
  intro allowed u rest h
  change Reads (Ttc.power eof ts) u rest at h
  rw [Ttc.power] at h
  obtain ⟨t, r, lt, read, h⟩ := h.of_bind
  obtain ⟨us, rfl, derived⟩ := base allowed read
  dsimp only at h
  split at h
  · next caret hcaret =>
    obtain ⟨v, r', _, power, h⟩ := h.of_bind
    obtain ⟨rfl, rfl⟩ : combine .pow t v = u ∧ r' = rest := h.of_pure
    have hr : us ++ r = us ++ ⟨.sign .caret, caret.value⟩ :: caret.rest :=
      congrArg (us ++ ·) (of_sign? hcaret)
    have allowed' : TrailingComma caret.rest → trailing := by
      intro comma
      apply allowed
      rw [hr]
      exact (comma.append_left [_]).append_left us
    obtain ⟨vs, hvs, derived'⟩ := exponent ⟨t, r, lt⟩ caret allowed' power
    refine ⟨us ++ ⟨.sign .caret, caret.value⟩ :: vs, ?_, .raise derived derived'⟩
    rw [List.append_assoc, List.cons_append, ← hvs]
    exact hr
  · obtain ⟨rfl, rfl⟩ : t = u ∧ r = rest := h.of_pure
    exact ⟨us, rfl, .atom derived⟩

theorem consumes_group {s : Span} (inner : Level.sum.Consumes trailing eof ts) :
    Level.atom.Consumes trailing eof (⟨.sign .lparen, s⟩ :: ts) := by
  intro allowed u rest h
  change Reads (Ttc.atom eof _) u rest at h
  rw [Ttc.atom] at h
  obtain ⟨t, r, lt, read, h⟩ := h.of_bind
  obtain ⟨close, r', _, hclose, h⟩ := h.of_bind
  obtain ⟨rfl, rfl⟩ : t.withSpan (s.merge close) = u ∧ r' = rest := h.of_pure
  obtain ⟨us, rfl, derived⟩ := inner (fun comma => allowed (comma.append_left [_])) read
  obtain rfl := of_reads_sign hclose
  exact ⟨_, by simp, .group derived⟩

theorem consumes_numeral {w : String} {s : Span} :
    Level.atom.Consumes trailing eof (⟨.integer w, s⟩ :: ts) := by
  intro _ u rest h
  change Reads (Ttc.atom eof _) u rest at h
  rw [Ttc.atom] at h
  obtain ⟨p, r, _, number, h⟩ := h.of_bind
  obtain ⟨rfl, rfl⟩ : Ttc.number p.1 p.2 = u ∧ r = rest := h.of_pure
  obtain ⟨us, hus, numeral⟩ := takes_unsigned number
  exact ⟨us, hus, .number numeral⟩

theorem consumes_distribution {n : String} {s : Span} :
    Level.atom.Consumes trailing eof (⟨.ident n, s⟩ :: ts) := by
  intro allowed u rest h
  change Reads (Ttc.atom eof _) u rest at h
  rw [Ttc.atom] at h
  obtain ⟨us, rfl, derived⟩ := parameters_extends (fun comma => allowed (comma.append_left [_])) h
  exact ⟨⟨.ident n, s⟩ :: us, rfl, derived⟩

/-- The readers of all levels yield what is derived. -/
theorem reader_consumes (trailing : Prop) (eof : Span) :
    (∀ ts, Level.sum.Consumes trailing eof ts) ∧ (∀ t ts, Level.sum.Extends trailing eof t ts) ∧
      (∀ ts, Level.product.Consumes trailing eof ts) ∧
      (∀ t ts, Level.product.Extends trailing eof t ts) ∧
      (∀ ts, Level.power.Consumes trailing eof ts) ∧
      (∀ ts, Level.atom.Consumes trailing eof ts) := by
  apply read.mutual_induct
  case case1 =>
    intro ts ih more
    refine Level.consumes_of_first ?_ .product ih more
    rw [Level.read, Ttc.read]
    rfl
  case case2 =>
    intro t
    apply Level.extends_of_leaving
    rw [Level.resume, addends]
    rfl
  case case3 =>
    intro t l r op hop ih more
    refine Level.extends_of_operator ?_ (.add hop) ih more
    rw [Level.resume, addends, hop]
    rfl
  case case4 =>
    intro t l r hop
    apply Level.extends_of_leaving
    rw [Level.resume, addends, hop]
    rfl
  case case5 =>
    intro ts ih more
    refine Level.consumes_of_first ?_ .power ih more
    rw [Level.read, Ttc.product]
    rfl
  case case6 =>
    intro t
    apply Level.extends_of_leaving
    rw [Level.resume, factors]
    rfl
  case case7 =>
    intro t l r op hop ih more
    refine Level.extends_of_operator ?_ (.multiply hop) ih more
    rw [Level.resume, factors, hop]
    rfl
  case case8 =>
    intro t l r hop
    apply Level.extends_of_leaving
    rw [Level.resume, factors, hop]
    rfl
  case case9 => exact fun ts ih exponent => consumes_power ih exponent
  case case10 => exact fun s r ih => consumes_group ih
  case case11 => exact fun w s r => consumes_numeral
  case case12 => exact fun n s r => consumes_distribution
  case case13 =>
    intro l r noGroup noNumber noName
    apply Level.consumes_of_error
    rw [Level.read, Ttc.atom]
    · exact noGroup
    · exact noNumber
    · exact noName
  case case14 =>
    apply Level.consumes_of_error
    rw [Level.read, Ttc.atom]

/-- A time that is read is derived from what is consumed. -/
theorem derives_of_reads (allowed : TrailingComma ts → trailing) (h : Reads (read eof ts) t rest) :
    ∃ us, ts = us ++ rest ∧ Derives trailing .sum us t :=
  (reader_consumes trailing eof).1 ts allowed h

end Ttc

end MetaAttack
