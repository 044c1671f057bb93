import MetaAttack.Proofs.Alike
import MetaAttack.Spec.Expr.Parser
import MetaAttack.Spec.Ttc.Parser

/-!
# Expressions and times in other places

The readers of expressions and of times to compromise respect where lexemes stand. What they have
read so far is handed from level to level, so it is compared along with the lexemes.
-/

namespace MetaAttack

variable {α : Type} {v : Views} {ts ts' : List Lexeme} {eof eof' : Span}

namespace Views

/-- The reader respects `ts`. -/
def RespectedAt (v : Views) (move : (Span → Span) → α → α) {k : List Lexeme → Nat}
    (read : Span → (ts : List Lexeme) → Except ParseError (Parsed α (k ts))) (eof eof' : Span)
    (ts : List Lexeme) : Prop :=
  ∀ ⦃ts'⦄, Alike v ts ts' → Agree v move (read eof ts) (read eof' ts')

/-- The reader that goes on from `a` respects it and `ts`. -/
def ResumedAt (v : Views) (move : (Span → Span) → α → α) {k : List Lexeme → Nat}
    (resume : Span → α → (ts : List Lexeme) → Except ParseError (Parsed α (k ts)))
    (eof eof' : Span) (a : α) (ts : List Lexeme) : Prop :=
  ∀ ⦃a' ts'⦄, move v.left a = move v.right a' → Alike v ts ts' →
    Agree v move (resume eof a ts) (resume eof' a' ts')

end Views

/-- What goes on from the first value respects where it stands, if both readers do. -/
theorem agree_resume {move : (Span → Span) → α → α}
    {first : Span → (ts : List Lexeme) → Except ParseError (Parsed α ts.length)}
    {resume : Span → α → (ts : List Lexeme) → Except ParseError (Parsed α (ts.length + 1))}
    (start : v.RespectedAt move first eof eof' ts)
    (more : ∀ p : Parsed α ts.length, v.ResumedAt move resume eof eof' p.value p.rest)
    (alike : Alike v ts ts') :
    Agree v move
      (first eof ts >>= fun p => resume eof p.value p.rest >>= fun q => pure (p.beforeAny q))
      (first eof' ts' >>= fun p => resume eof' p.value p.rest >>= fun q => pure (p.beforeAny q)) :=
  (start alike).bind fun p _ value rest =>
    (more p value rest).bind fun _ _ value rest => .ok value rest

/-- What an operator takes in respects where it stands, if the readers behind it do and the
operands are joined alike. -/
theorem agree_onward {move : (Span → Span) → α → α}
    {tighter : Span → (ts : List Lexeme) → Except ParseError (Parsed α ts.length)}
    {resume : Span → α → (ts : List Lexeme) → Except ParseError (Parsed α (ts.length + 1))}
    {join join' : α → α} (second : v.RespectedAt move tighter eof eof' ts)
    (more : ∀ p : Parsed α ts.length, v.ResumedAt move resume eof eof' (join p.value) p.rest)
    (joined : ∀ {b b'}, move v.left b = move v.right b' →
      move v.left (join b) = move v.right (join' b'))
    (alike : Alike v ts ts') :
    Agree v move
      (tighter eof ts >>= fun p => resume eof (join p.value) p.rest >>= fun q =>
        pure ((p.beforeAny q).behind 2))
      (tighter eof' ts' >>= fun p => resume eof' (join' p.value) p.rest >>= fun q =>
        pure ((p.beforeAny q).behind 2)) :=
  (second alike).bind fun p _ value rest =>
    (more p (joined value) rest).bind fun _ _ value rest => .ok value rest

/-! ### Expressions -/

namespace Expr

variable {e e' l l' r r' : Expr} {s s' : Span}

/-- Expressions that look the same stand in places that look the same. -/
theorem span_alike (h : e.relocate v.left = e'.relocate v.right) :
    v.left e.span = v.right e'.span := by
  calc v.left e.span
    _ = (e.relocate v.left).span := (span_relocate ..).symm
    _ = (e'.relocate v.right).span := congrArg span h
    _ = v.right e'.span := span_relocate ..

/-- Expressions that look the same do so in parentheses. -/
theorem withSpan_alike (h : e.relocate v.left = e'.relocate v.right)
    (span : v.left s = v.right s') :
    (e.withSpan s).relocate v.left = (e'.withSpan s').relocate v.right := by
  rw [relocate_withSpan, relocate_withSpan, h, span]

/-- The place of what is put together is merged from those of its parts. -/
theorem collect_alike (hl : l.relocate v.left = l'.relocate v.right)
    (hr : r.relocate v.left = r'.relocate v.right) :
    (collect l r (l.span.merge r.span)).relocate v.left =
      (collect l' r' (l'.span.merge r'.span)).relocate v.right := by
  rw [relocate, relocate, hl, hr, v.merge (span_alike hl) (span_alike hr)]

theorem combine_alike (op : SetOp) (hl : l.relocate v.left = l'.relocate v.right)
    (hr : r.relocate v.left = r'.relocate v.right) :
    (combine op l r (l.span.merge r.span)).relocate v.left =
      (combine op l' r' (l'.span.merge r'.span)).relocate v.right := by
  rw [relocate, relocate, hl, hr, v.merge (span_alike hl) (span_alike hr)]

theorem closure_alike (h : e.relocate v.left = e'.relocate v.right)
    (span : v.left s = v.right s') :
    (closure e (e.span.merge s)).relocate v.left =
      (closure e' (e'.span.merge s')).relocate v.right := by
  rw [relocate, relocate, h, v.merge (span_alike h) span]

/-- A restriction reaches up to its closing bracket. -/
theorem restrict_alike {a a' : Ident} (h : e.relocate v.left = e'.relocate v.right)
    (asset : a.relocate v.left = a'.relocate v.right) (span : v.left s = v.right s') :
    (restrict e a (e.span.merge s)).relocate v.left =
      (restrict e' a' (e'.span.merge s')).relocate v.right := by
  rw [relocate, relocate, h, asset, v.merge (span_alike h) span]

/-- Closures and restrictions behind an expression are taken one by one, each by its first token. -/
theorem resumes_suffixes (ends : v.left eof = v.right eof') (e : Expr) (ts : List Lexeme) :
    v.ResumedAt relocate suffixes eof eof' e ts := by
  induction e, ts using suffixes.induct with
  | case1 e s r ih =>
      intro e' ts' value alike
      cases alike with
      | cons span _ more =>
          rw [suffixes, suffixes]
          exact (ih (closure_alike value span) more).bind fun _ _ value rest => .ok value rest
  | case2 e s r ih =>
      intro e' ts' value alike
      cases alike with
      | cons _ _ more =>
          rw [suffixes, suffixes]
          refine (respected_ident ends more).bind fun asset asset' hasset rest => ?_
          refine (respected_sign .rbracket ends rest).bind fun close close' hclose rest => ?_
          have restricted := restrict_alike value hasset hclose
          refine (ih asset close restricted rest).bind fun _ _ value rest => ?_
          exact .ok value rest
  | case3 e ts noStar noBracket =>
      intro e' ts' value alike
      rw [suffixes, suffixes]
      · exact .ok value alike
      · exact alike.ne_cons noStar
      · exact alike.ne_cons noBracket
      · exact noStar
      · exact noBracket

/-- One step of a chain of set operations: the operand behind the operator, then the rest. -/
theorem resumed_operator {l : Lexeme} {op : SetOp} (hop : SetOp.ofToken? l.token = some op)
    (right : v.RespectedAt relocate chain eof eof' ts)
    (more : ∀ p : Parsed Expr ts.length, v.ResumedAt relocate operands eof eof'
      (.combine op e p.value (e.span.merge p.value.span)) p.rest) :
    v.ResumedAt relocate operands eof eof' e (l :: ts) := by
  intro e' ts' value alike
  cases alike with
  | cons _ _ behind =>
      rw [operands, operands]
      dsimp only at hop ⊢
      rw [hop]
      exact agree_onward right more (combine_alike op value) behind

/-- Without an operator the chain ends here, on both sides. -/
theorem resumed_leaving {l : Lexeme} (hop : SetOp.ofToken? l.token = none) :
    v.ResumedAt relocate operands eof eof' e (l :: ts) := by
  intro e' ts' value alike
  cases alike with
  | cons span touching behind =>
      rw [operands, operands]
      dsimp only at hop ⊢
      rw [hop]
      exact .ok value (.cons span touching behind)

/-- One step of a chain of dots. -/
theorem resumed_dot {s : Span} (right : v.RespectedAt relocate operand eof eof' ts)
    (more : ∀ p : Parsed Expr ts.length, v.ResumedAt relocate links eof eof'
      (.collect e p.value (e.span.merge p.value.span)) p.rest) :
    v.ResumedAt relocate links eof eof' e (⟨.sign .dot, s⟩ :: ts) := by
  intro e' ts' value alike
  cases alike with
  | cons _ _ behind =>
      rw [links, links]
      exact agree_onward right more (collect_alike value) behind

/-- Parentheses give what stands in them, in their own place. -/
theorem respected_group (ends : v.left eof = v.right eof') {s : Span}
    (inner : v.RespectedAt relocate read eof eof' ts) :
    v.RespectedAt relocate primary eof eof' (⟨.sign .lparen, s⟩ :: ts) := by
  intro ts' alike
  cases alike with
  | cons span _ more =>
      rw [primary, primary]
      refine (inner more).bind fun e e' value rest => ?_
      refine (respected_sign .rparen ends rest).bind fun close close' hclose rest => ?_
      exact .ok (withSpan_alike value (v.merge span hclose)) rest

/-- A name with empty parentheses behind it is a call. -/
theorem respected_call {n : String} {s opening close : Span} :
    v.RespectedAt relocate primary eof eof' (⟨.ident n, s⟩ :: ⟨.sign .lparen, opening⟩ ::
      ⟨.sign .rparen, close⟩ :: ts) := by
  intro ts' alike
  obtain ⟨_, _, rfl, span, more⟩ := alike.ahead
  obtain ⟨_, _, rfl, _, more⟩ := more.ahead
  obtain ⟨_, _, rfl, hclose, more⟩ := more.ahead
  rw [primary, primary]
  exact .ok (congrArg₂ (fun s => call ⟨n, s⟩) span (v.merge span hclose)) more

/-- Any other name is a field. The hypothesis rules the call out, which is matched first. -/
theorem respected_field {n : String} {s : Span}
    (uncalled : ∀ s s' r, ts = ⟨.sign .lparen, s⟩ :: ⟨.sign .rparen, s'⟩ :: r → False) :
    v.RespectedAt relocate primary eof eof' (⟨.ident n, s⟩ :: ts) := by
  intro ts' alike
  obtain ⟨_, _, rfl, span, more⟩ := alike.ahead
  rw [primary, primary]
  · exact .ok (congrArg (fun s => field ⟨n, s⟩ s) span) more
  · rintro opening close r rfl
    obtain ⟨_, _, rfl, behind⟩ := more.starts
    obtain ⟨_, _, rfl, _⟩ := behind.starts
    exact uncalled _ _ _ rfl
  · exact uncalled

/-- The readers of all levels respect where lexemes stand. -/
theorem reads_levels (ends : v.left eof = v.right eof') :
    (∀ ts, v.RespectedAt relocate read eof eof' ts) ∧
      (∀ e ts, v.ResumedAt relocate operands eof eof' e ts) ∧
      (∀ ts, v.RespectedAt relocate chain eof eof' ts) ∧
      (∀ e ts, v.ResumedAt relocate links eof eof' e ts) ∧
      (∀ ts, v.RespectedAt relocate operand eof eof' ts) ∧
      (∀ ts, v.RespectedAt relocate primary eof eof' ts) := by
  -- Both readers are in the same clause: the clauses are told apart by tokens.
  apply read.mutual_induct
  case case1 =>
    intro ts ih more ts' alike
    rw [read, read]
    exact agree_resume ih more alike
  case case2 =>
    intro e e' ts' value alike
    cases alike with
    | nil =>
        rw [operands, operands]
        exact .ok value .nil
  case case3 => exact fun e l r op hop ih more => resumed_operator hop ih more
  case case4 => exact fun e l r hop => resumed_leaving hop
  case case5 =>
    intro ts ih more ts' alike
    rw [chain, chain]
    exact agree_resume ih more alike
  case case6 => exact fun e dot r ih more => resumed_dot ih more
  case case7 =>
    intro e ts noDot e' ts' value alike
    rw [links, links]
    · exact .ok value alike
    · exact alike.ne_cons noDot
    · exact noDot
  case case8 =>
    intro ts ih ts' alike
    rw [operand, operand]
    exact agree_resume ih (fun p => resumes_suffixes ends p.value p.rest) alike
  case case9 => exact fun s r ih => respected_group ends ih
  case case10 => exact fun n s opening close r => respected_call
  case case11 => exact fun n s r uncalled => respected_field uncalled
  case case12 =>
    intro l r noGroup noCall noName ts' alike
    cases alike with
    | @cons t s s' _ _ span _ more =>
        rw [primary, primary]
        · exact .error (congrArg (ParseError.unexpectedToken .expression t) span)
        · exact Lexeme.ne_of_ne noGroup
        · rintro _ _ _ _ _ ⟨⟩
          exact absurd rfl (noName _ _)
        · exact fun n => Lexeme.ne_of_ne (noName n)
        · exact noGroup
        · exact noCall
        · exact noName
  case case13 =>
    intro ts' alike
    cases alike with
    | nil =>
        rw [primary, primary]
        exact .error (congrArg (ParseError.unexpectedEnd .expression) ends)

theorem respected_read : v.Respected relocate read := fun _ _ ts _ ends alike =>
  (reads_levels ends).1 ts alike

theorem respected_readList : v.Respected (fun g => List.map (relocate g)) readList := by
  intro eof eof' ts ts' ends alike
  induction ts using readList.induct generalizing ts' with
  | case1 ts ih =>
      rw [readList, readList]
      refine (respected_read ends alike).bind fun first first' value rest => ?_
      rcases sign?_alike .comma rest with ⟨h, h'⟩ | ⟨comma, comma', h, h', _, behind⟩
      · rw [h, h']
        exact .ok (congrArg (fun e => [e]) value) rest
      · rw [h, h']
        refine (ih first comma behind).bind fun more more' values rest => ?_
        exact .ok (congrArg₂ List.cons value values) rest

end Expr

/-! ### Numbers -/

/-- What is read behind a numeral respects where it stands if what follows does. -/
theorem agree_numeral {n n' : Nat} {move : (Span → Span) → α → α} {w : String} {f : Option String}
    {s s' : Span} {g : Float × Span → Except ParseError (Parsed α n)}
    {g' : Float × Span → Except ParseError (Parsed α n')} (span : v.left s = v.right s')
    (next : ∀ x, Agree v move (g (x, s)) (g' (x, s'))) :
    Agree v move (numeral w f s >>= g) (numeral w f s' >>= g') := by
  rw [numeral, numeral]
  cases Decimal.value? w f with
  | none => exact .error (congrArg (ParseError.invalidNumber (Decimal.text w f)) span)
  | some x => exact next x

/-- A number is read alike; this reader alone looks at spans, to tell whether a fraction touches. -/
theorem respected_unsigned : v.Respected (fun g => Prod.map id g) unsigned := by
  intro eof eof' ts ts' ends alike
  fun_cases unsigned eof ts with
  | case1 w s d f s' r touching =>
      cases alike with
      | cons span touch more =>
          obtain ⟨_, _, rfl, _, more⟩ := more.ahead
          obtain ⟨_, _, rfl, span', more⟩ := more.ahead
          have touching' : _ ∧ _ := touch.mp touching
          rw [unsigned, unsigned, if_pos touching, if_pos touching']
          have merged := v.merge span span'
          exact agree_numeral merged fun x => .ok (congrArg (Prod.mk x) merged) more
  | case2 w s d f s' r apart =>
      cases alike with
      | cons span touch dot =>
          obtain ⟨_, _, rfl, _, more⟩ := dot.ahead
          obtain ⟨_, _, rfl, span', more⟩ := more.ahead
          have apart' : ¬ (_ ∧ _) := fun touching => apart (touch.mpr touching)
          rw [unsigned, unsigned, if_neg apart, if_neg apart']
          exact agree_numeral span fun x => .ok (congrArg (Prod.mk x) span) dot
  | case3 w s r noFraction =>
      obtain ⟨_, r', rfl, span, more⟩ := alike.ahead
      have noFraction' : ∀ d f s' u, r' = ⟨.sign .dot, d⟩ :: ⟨.integer f, s'⟩ :: u → False := by
        rintro d f s' u rfl
        obtain ⟨_, _, rfl, behind⟩ := more.starts
        obtain ⟨_, _, rfl, _⟩ := behind.starts
        exact noFraction _ _ _ _ rfl
      rw [unsigned, unsigned]
      · exact agree_numeral span fun x => .ok (congrArg (Prod.mk x) span) more
      · exact noFraction'
      · exact noFraction
  | case4 l r noFraction noDigits =>
      obtain ⟨t, s⟩ := l
      obtain ⟨_, _, rfl, span, _⟩ := alike.ahead
      rw [unsigned, unsigned]
      · exact .error (congrArg (ParseError.unexpectedToken .number t) span)
      · rintro _ _ _ _ _ _ ⟨⟩
        exact absurd rfl (noDigits _ _)
      · exact fun n => Lexeme.ne_of_ne (noDigits n)
      · exact noFraction
      · exact noDigits
  | case5 =>
      cases alike with
      | nil =>
          rw [unsigned, unsigned]
          exact .error (congrArg (ParseError.unexpectedEnd .number) ends)

/-- A sign may stand in front of a parameter and of nothing else. -/
theorem respected_signed : v.Respected (fun _ => id) signed := by
  intro eof eof' ts ts' ends alike
  fun_cases signed eof ts with
  | case1 s r =>
      obtain ⟨_, _, rfl, _, more⟩ := alike.ahead
      rw [signed, signed]
      refine (respected_unsigned ends more).bind fun n n' value rest => ?_
      exact .ok (congrArg Neg.neg (fst_alike value)) rest
  | case2 ts noMinus =>
      rw [signed, signed]
      · refine (respected_unsigned ends alike).bind fun n n' value rest => ?_
        exact .ok (fst_alike value) rest
      · exact alike.ne_cons noMinus
      · exact noMinus

/-! ### Times -/

namespace Ttc

variable {t t' l l' r r' : Ttc} {s s' : Span}

theorem span_alike (h : t.relocate v.left = t'.relocate v.right) :
    v.left t.span = v.right t'.span := calc v.left t.span
  _ = (t.relocate v.left).span := (span_relocate ..).symm
  _ = (t'.relocate v.right).span := congrArg span h
  _ = v.right t'.span := span_relocate ..

theorem withSpan_alike (h : t.relocate v.left = t'.relocate v.right)
    (span : v.left s = v.right s') :
    (t.withSpan s).relocate v.left = (t'.withSpan s').relocate v.right := by
  rw [relocate_withSpan, relocate_withSpan, h, span]

theorem combine_alike (op : TtcOp) (hl : l.relocate v.left = l'.relocate v.right)
    (hr : r.relocate v.left = r'.relocate v.right) :
    (combine op l r).relocate v.left = (combine op l' r').relocate v.right := by
  rw [combine, combine, relocate, relocate, hl, hr, v.merge (span_alike hl) (span_alike hr)]

/-- A distribution without parentheses has no parameters. -/
theorem resumed_parameters (ends : v.left eof = v.right eof') {name : String}
    (span : v.left s = v.right s') (alike : Alike v ts ts') :
    Agree v relocate (parameters eof ⟨name, s⟩ ts) (parameters eof' ⟨name, s'⟩ ts') := by
  fun_cases parameters eof ⟨name, s⟩ ts with
  | case1 opening r =>
      obtain ⟨_, _, rfl, _, more⟩ := alike.ahead
      rw [parameters, parameters]
      refine (respected_commaSeparated respected_signed ends more).bind fun ps ps' hps rest => ?_
      refine (respected_sign .rparen ends rest).bind fun close close' hclose rest => ?_
      have params : ps.value = ps'.value := by rwa [List.map_id, List.map_id] at hps
      refine .ok ?_ rest
      change distribution ⟨name, v.left s⟩ ps.value (v.left (s.merge close.value)) =
        distribution ⟨name, v.right s'⟩ ps'.value (v.right (s'.merge close'.value))
      rw [params, span, v.merge span hclose]
  | case2 ts noParams =>
      rw [parameters, parameters]
      · exact .ok (congrArg (fun s => distribution ⟨name, s⟩ [] s) span) alike
      · exact alike.ne_cons noParams
      · exact noParams

/-- One step of a sum. -/
theorem resumed_addend {l : Lexeme} {op : TtcOp} (hop : TtcOp.additive? l.token = some op)
    (right : v.RespectedAt relocate product eof eof' ts)
    (more : ∀ p : Parsed Ttc ts.length,
      v.ResumedAt relocate addends eof eof' (combine op t p.value) p.rest) :
    v.ResumedAt relocate addends eof eof' t (l :: ts) := by
  intro t' ts' value alike
  cases alike with
  | cons _ _ behind =>
      rw [addends, addends]
      dsimp only at hop ⊢
      rw [hop]
      exact agree_onward right more (combine_alike op value) behind

theorem resumed_addends_leaving {l : Lexeme} (hop : TtcOp.additive? l.token = none) :
    v.ResumedAt relocate addends eof eof' t (l :: ts) := by
  intro t' ts' value alike
  cases alike with
  | cons span touching behind =>
      rw [addends, addends]
      dsimp only at hop ⊢
      rw [hop]
      exact .ok value (.cons span touching behind)

/-- One step of a product. -/
theorem resumed_factor {l : Lexeme} {op : TtcOp} (hop : TtcOp.multiplicative? l.token = some op)
    (right : v.RespectedAt relocate power eof eof' ts)
    (more : ∀ p : Parsed Ttc ts.length,
      v.ResumedAt relocate factors eof eof' (combine op t p.value) p.rest) :
    v.ResumedAt relocate factors eof eof' t (l :: ts) := by
  intro t' ts' value alike
  cases alike with
  | cons _ _ behind =>
      rw [factors, factors]
      dsimp only at hop ⊢
      rw [hop]
      exact agree_onward right more (combine_alike op value) behind

theorem resumed_factors_leaving {l : Lexeme} (hop : TtcOp.multiplicative? l.token = none) :
    v.ResumedAt relocate factors eof eof' t (l :: ts) := by
  intro t' ts' value alike
  cases alike with
  | cons span touching behind =>
      rw [factors, factors]
      dsimp only at hop ⊢
      rw [hop]
      exact .ok value (.cons span touching behind)

/-- Powers group to the right, so the exponent is a power again. -/
theorem respected_power (base : v.RespectedAt relocate atom eof eof' ts)
    (exponent : ∀ (b : Parsed Ttc ts.length) (caret : Parsed Span b.rest.length),
      v.RespectedAt relocate power eof eof' caret.rest) :
    v.RespectedAt relocate power eof eof' ts := by
  intro ts' alike
  rw [power, power]
  refine (base alike).bind fun b b' value rest => ?_
  rcases sign?_alike .caret rest with ⟨h, h'⟩ | ⟨caret, caret', h, h', _, behind⟩
  · rw [h, h']
    exact .ok value rest
  · rw [h, h']
    refine (exponent b caret behind).bind fun power power' hpower rest => ?_
    exact .ok (combine_alike .pow value hpower) rest

theorem respected_group (ends : v.left eof = v.right eof') {s : Span}
    (inner : v.RespectedAt relocate read eof eof' ts) :
    v.RespectedAt relocate atom eof eof' (⟨.sign .lparen, s⟩ :: ts) := by
  intro ts' alike
  obtain ⟨_, _, rfl, span, more⟩ := alike.ahead
  rw [atom, atom]
  refine (inner more).bind fun t t' value rest => ?_
  refine (respected_sign .rparen ends rest).bind fun close close' hclose rest => ?_
  exact .ok (withSpan_alike value (v.merge span hclose)) rest

theorem respected_numeral (ends : v.left eof = v.right eof') {w : String} {s : Span} :
    v.RespectedAt relocate atom eof eof' (⟨.integer w, s⟩ :: ts) := by
  intro ts' alike
  obtain ⟨_, _, rfl, _, _⟩ := alike.ahead
  rw [atom, atom]
  refine (respected_unsigned ends alike).bind fun n n' value rest => ?_
  exact .ok (congrArg₂ number (fst_alike value) (snd_alike value)) rest

/-- The readers of all levels respect where lexemes stand. -/
theorem reads_levels (ends : v.left eof = v.right eof') :
    (∀ ts, v.RespectedAt relocate read eof eof' ts) ∧
      (∀ t ts, v.ResumedAt relocate addends eof eof' t ts) ∧
      (∀ ts, v.RespectedAt relocate product eof eof' ts) ∧
      (∀ t ts, v.ResumedAt relocate factors eof eof' t ts) ∧
      (∀ ts, v.RespectedAt relocate power eof eof' ts) ∧
      (∀ ts, v.RespectedAt relocate atom eof eof' ts) := by
  apply read.mutual_induct
  case case1 =>
    intro ts ih more ts' alike
    rw [read, read]
    exact agree_resume ih more alike
  case case2 =>
    intro t t' ts' value alike
    cases alike with
    | nil =>
        rw [addends, addends]
        exact .ok value .nil
  case case3 => exact fun t l r op hop ih more => resumed_addend hop ih more
  case case4 => exact fun t l r hop => resumed_addends_leaving hop
  case case5 =>
    intro ts ih more ts' alike
    rw [product, product]
    exact agree_resume ih more alike
  case case6 =>
    intro t t' ts' value alike
    cases alike with
    | nil =>
        rw [factors, factors]
        exact .ok value .nil
  case case7 => exact fun t l r op hop ih more => resumed_factor hop ih more
  case case8 => exact fun t l r hop => resumed_factors_leaving hop
  case case9 => exact fun ts ih exponent => respected_power ih exponent
  case case10 => exact fun s r ih => respected_group ends ih
  case case11 => exact fun w s r => respected_numeral ends
  case case12 =>
    intro n s r ts' alike
    obtain ⟨_, _, rfl, span, more⟩ := alike.ahead
    rw [atom, atom]
    exact resumed_parameters ends span more
  case case13 =>
    intro l r noGroup noDigits noName ts' alike
    obtain ⟨t, s⟩ := l
    obtain ⟨_, _, rfl, span, _⟩ := alike.ahead
    rw [atom, atom]
    · exact .error (congrArg (ParseError.unexpectedToken .ttcAtom t) span)
    · exact Lexeme.ne_of_ne noGroup
    · exact fun n => Lexeme.ne_of_ne (noDigits n)
    · exact fun n => Lexeme.ne_of_ne (noName n)
    · exact noGroup
    · exact noDigits
    · exact noName
  case case14 =>
    intro ts' alike
    cases alike with
    | nil =>
        rw [atom, atom]
        exact .error (congrArg (ParseError.unexpectedEnd .ttcExpression) ends)

theorem respected_read : v.Respected relocate read := fun _ _ ts _ ends alike =>
  (reads_levels ends).1 ts alike

end Ttc

end MetaAttack
