import MetaAttack.Proofs.Reading
import MetaAttack.Spec.Expr.Parser

/-!
# The grammar of expressions

The set operators share one left-associative level, `.` is left-associative and tighter, and the
suffixes `*` and `[Asset]` are tightest. `Expr.Derives` says so with one production for each way of
writing an expression, and the reader of expressions reads whatever is derived.

## Implementation notes

The productions are left-recursive while the reader goes from left to right, with the expression
read so far in its hand. What the reader of a level makes of a phrase is therefore stated with what
it does next: it reads the phrase and goes on, as if it had been handed the expression.
-/

namespace MetaAttack.Expr

variable {ts us rest left : List Lexeme} {e f : Expr} {eof : Span}

/-- How tightly an expression holds together. -/
inductive Level
  | sum
  | chain
  | operand
  | primary

/-- What expression the lexemes are, as one of the level. -/
inductive Derives : Level → Phrase Expr
  | field {n : String} {s : Span} : Derives .primary [⟨.ident n, s⟩] (.field ⟨n, s⟩ s)
  | call {n : String} {s opening close : Span} :
      Derives .primary [⟨.ident n, s⟩, ⟨.sign .lparen, opening⟩, ⟨.sign .rparen, close⟩]
        (.call ⟨n, s⟩ (s.merge close))
  | group {ts : List Lexeme} {e : Expr} {opening close : Span} (inner : Derives .sum ts e) :
      Derives .primary (⟨.sign .lparen, opening⟩ :: ts ++ [⟨.sign .rparen, close⟩])
        (e.withSpan (opening.merge close))
  | primary {ts : List Lexeme} {e : Expr} (h : Derives .primary ts e) : Derives .operand ts e
  | closure {ts : List Lexeme} {e : Expr} {s : Span} (inner : Derives .operand ts e) :
      Derives .operand (ts ++ [⟨.sign .star, s⟩]) (.closure e (e.span.merge s))
  | restrict {ts : List Lexeme} {e : Expr} {asset : String} {opening s close : Span}
      (inner : Derives .operand ts e) :
      Derives .operand
        (ts ++ [⟨.sign .lbracket, opening⟩, ⟨.ident asset, s⟩, ⟨.sign .rbracket, close⟩])
        (.restrict e ⟨asset, s⟩ (e.span.merge close))
  | operand {ts : List Lexeme} {e : Expr} (h : Derives .operand ts e) : Derives .chain ts e
  | collect {ts us : List Lexeme} {e f : Expr} {dot : Span} (lhs : Derives .chain ts e)
      (rhs : Derives .operand us f) :
      Derives .chain (ts ++ ⟨.sign .dot, dot⟩ :: us) (.collect e f (e.span.merge f.span))
  | chain {ts : List Lexeme} {e : Expr} (h : Derives .chain ts e) : Derives .sum ts e
  | combine {ts us : List Lexeme} {e f : Expr} {op : SetOp} {l : Lexeme}
      (hop : SetOp.ofToken? l.token = some op) (lhs : Derives .sum ts e)
      (rhs : Derives .chain us f) :
      Derives .sum (ts ++ l :: us) (.combine op e f (e.span.merge f.span))

/-! ### Where an expression ends -/

/-- The lexemes do not make a call of a name in front of them. -/
def Uncalled (ts : List Lexeme) : Prop :=
  ∀ s s' r, ts ≠ ⟨.sign .lparen, s⟩ :: ⟨.sign .rparen, s'⟩ :: r

/-- What does not open a parenthesis is no call. -/
theorem uncalled_of_avoids {ss : List Sign} (h : Avoids ss ts) (hs : .lparen ∈ ss) :
    Uncalled ts :=
  fun _ _ _ => h.ne hs

namespace Level

/-- The signs that continue an expression of a tighter level. -/
def inner : Level → List Sign
  | primary | operand => []
  | chain => [.star, .lbracket]
  | sum => [.star, .lbracket, .dot]

/-- The lexemes do not continue an expression of a tighter level in front of them. -/
structure Follows (level : Level) (ts : List Lexeme) : Prop where
  uncalled : Uncalled ts
  avoids : Avoids level.inner ts

/-- Reads an expression of the level. -/
def read (eof : Span) (ts : List Lexeme) : Level → Except ParseError (Parsed Expr ts.length)
  | sum => Expr.read eof ts
  | chain => Expr.chain eof ts
  | operand => Expr.operand eof ts
  | primary => Expr.primary eof ts

/-- Reads on, with an expression of the level already read. -/
def resume (eof : Span) (e : Expr) (ts : List Lexeme) :
    Level → Except ParseError (Parsed Expr (ts.length + 1))
  | sum => operands eof e ts
  | chain => links eof e ts
  | operand => suffixes eof e ts
  | primary => .ok (.leaving e ts)

end Level

/-- None of the signs that continue an expression comes first, nor the parentheses of a call. -/
structure Ends (ts : List Lexeme) : Prop where
  uncalled : Uncalled ts
  avoids : Avoids [.star, .lbracket, .dot, .union, .intersection, .minus] ts

/-- A reader leaves off where none of its signs stands. -/
theorem suffixes_of_avoids (h : Avoids [.star, .lbracket] ts) :
    suffixes eof e ts = .ok (.leaving e ts) := by
  rw [suffixes]
  · rfl
  · rintro s r rfl
    exact h.ne (by simp) rfl
  · rintro s r rfl
    exact h.ne (by simp) rfl

theorem links_of_avoids (h : Avoids [.dot] ts) : links eof e ts = .ok (.leaving e ts) := by
  rw [links]
  · rfl
  · rintro s r rfl
    exact h.ne (by simp) rfl

/-- There are three set operators, each a sign of its own. -/
theorem ofToken?_of_ne {t : Token} (h : ∀ s ∈ [Sign.union, .intersection, .minus], t ≠ .sign s) :
    SetOp.ofToken? t = none := by
  unfold SetOp.ofToken?
  split <;> simp_all

theorem operands_of_avoids (h : Avoids [.union, .intersection, .minus] ts) :
    operands eof e ts = .ok (.leaving e ts) := by
  cases ts with
  | nil =>
      rw [operands]
      rfl
  | cons l r =>
      rw [operands, ofToken?_of_ne (avoids_cons.mp h)]
      rfl

/-! ### Completeness -/

/-- The reader of the level takes the lexemes for the expression and goes on behind them. -/
def Level.Handles (level : Level) (eof : Span) (ts : List Lexeme) (e : Expr) : Prop :=
  ∀ ⦃rest : List Lexeme⦄ ⦃f : Expr⦄ ⦃left : List Lexeme⦄, level.Follows rest →
    Reads (level.resume eof e rest) f left → Reads (level.read eof (ts ++ rest)) f left

/-- A chain that nothing continues is an operand. -/
theorem Level.Handles.operand (h : Level.operand.Handles eof ts e)
    (follows : Level.chain.Follows rest) : Reads (Expr.operand eof (ts ++ rest)) e rest := by
  refine h ⟨follows.uncalled, follows.avoids.mono (by simp [inner])⟩ ?_
  rw [resume, suffixes_of_avoids follows.avoids]
  exact .pure _

theorem Level.Handles.chain (h : Level.chain.Handles eof ts e)
    (follows : Level.sum.Follows rest) : Reads (Expr.chain eof (ts ++ rest)) e rest := by
  refine h ⟨follows.uncalled, follows.avoids.mono (by simp [inner])⟩ ?_
  rw [resume, links_of_avoids (follows.avoids.mono (by simp [inner]))]
  exact .pure _

/-- The reader of a level takes what is derived on the level for what it is. -/
theorem Derives.handles {level : Level} (h : Derives level ts e) : level.Handles eof ts e := by
  induction h with
  | @field n s =>
      intro rest f left follows next
      change Reads (Expr.primary eof (⟨.ident n, s⟩ :: rest)) f left
      rw [Expr.primary]
      · exact next
      · rintro s s' r rfl
        exact follows.uncalled _ _ _ rfl
  | call =>
      intro rest f left _ next
      change Reads (Expr.primary eof _) f left
      rw [List.cons_append, List.cons_append, List.cons_append, List.nil_append, Expr.primary]
      obtain ⟨_, next⟩ := next
      cases next
      exact .pure _
  | @group ts e opening close _ ih =>
      intro rest f left _ next
      change Reads (Expr.primary eof _) f left
      obtain ⟨_, next⟩ := next
      cases next
      have closed : Level.sum.Follows (⟨.sign .rparen, close⟩ :: rest) :=
        ⟨fun _ _ _ => by simp, by simp [Level.inner]⟩
      have inner : Reads (Expr.read eof (ts ++ ⟨.sign .rparen, close⟩ :: rest)) e
          (⟨.sign .rparen, close⟩ :: rest) := by
        refine ih closed ?_
        rw [Level.resume, operands_of_avoids (by simp)]
        exact .pure _
      rw [List.append_assoc, List.cons_append, List.singleton_append, Expr.primary]
      exact inner.bind fun _ => (reads_sign ..).bind fun _ => .pure _
  | primary _ ih =>
      intro rest f left follows next
      change Reads (Expr.operand eof _) f left
      rw [Expr.operand]
      have first := ih ⟨follows.uncalled, follows.avoids⟩ (.pure _)
      exact first.bind fun _ => next.bind fun _ => .pure _
  | @closure ts e s _ ih =>
      intro rest f left _ next
      rw [List.append_assoc]
      refine ih ⟨fun _ _ _ => by simp, by simp [Level.inner]⟩ ?_
      rw [Level.resume, List.singleton_append, suffixes]
      exact next.bind fun _ => .pure _
  | restrict _ ih =>
      intro rest f left _ next
      rw [List.append_assoc]
      refine ih ⟨fun _ _ _ => by simp, by simp [Level.inner]⟩ ?_
      rw [Level.resume, List.cons_append, List.cons_append, List.singleton_append, suffixes]
      exact (reads_ident ..).bind fun _ => (reads_sign ..).bind fun _ => next.bind fun _ => .pure _
  | operand _ ih =>
      intro rest f left follows next
      change Reads (Expr.chain eof _) f left
      rw [Expr.chain]
      exact (ih.operand follows).bind fun _ => next.bind fun _ => .pure _
  | collect _ _ ihl ihr =>
      intro rest f left follows next
      rw [List.append_assoc]
      refine ihl ⟨fun _ _ _ => by simp, by simp [Level.inner]⟩ ?_
      rw [Level.resume, List.cons_append, links]
      exact (ihr.operand follows).bind fun _ => next.bind fun _ => .pure _
  | chain _ ih =>
      intro rest f left follows next
      change Reads (Expr.read eof _) f left
      rw [Expr.read]
      exact (ih.chain follows).bind fun _ => next.bind fun _ => .pure _
  | combine hop _ _ ihl ihr =>
      intro rest f left follows next
      rw [List.append_assoc]
      refine ihl ⟨?_, ?_⟩ ?_
      · intro s s' r h
        rw [(List.cons.inj h).1] at hop
        cases hop
      · rw [List.cons_append, avoids_cons]
        rintro t ht hl
        rw [hl] at hop
        simp only [Level.inner, List.mem_cons, List.not_mem_nil, or_false] at ht
        rcases ht with rfl | rfl | rfl <;> cases hop
      rw [Level.resume, List.cons_append, operands, hop]
      exact (ihr.chain follows).bind fun _ => next.bind fun _ => .pure _

/-- An expression is read up to where it ends. -/
theorem Derives.reads (h : Derives .sum ts e) (ends : Ends rest) :
    Reads (read eof (ts ++ rest)) e rest := by
  refine h.handles ⟨ends.uncalled, ends.avoids.mono (by simp [Level.inner])⟩ ?_
  rw [Level.resume, operands_of_avoids (ends.avoids.mono (by simp))]
  exact .pure _

/-- A comma ends every expression. -/
theorem ends_comma {s : Span} : Ends (⟨.sign .comma, s⟩ :: rest) :=
  ⟨fun _ _ _ => by simp, by simp⟩

/-- A list of expressions is read up to where its last one ends. -/
theorem reads_list {es : List Expr} (h : Listed (Derives .sum) ts es) (ends : Ends rest)
    (single : Avoids [.comma] rest) : Reads (readList eof (ts ++ rest)) es rest := by
  induction h with
  | last h =>
      rw [readList]
      refine (h.reads ends).bind fun _ => ?_
      dsimp only
      rw [sign?_of_avoids single List.mem_cons_self]
      exact .pure _
  | cons h _ ih =>
      rw [List.append_assoc, List.cons_append, readList]
      refine (h.reads ends_comma).bind fun _ => ?_
      dsimp only
      rw [sign?_self]
      exact ih.bind fun _ => .pure _

end MetaAttack.Expr
