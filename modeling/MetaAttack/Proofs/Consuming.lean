import MetaAttack.Proofs.Reading

/-!
# What readers consume

A reader that succeeds has consumed a phrase: the lexemes that it was given are a phrase for the
value that it yields, with the lexemes that it leaves behind them. This is the converse of what
readers read, so it needs no condition on what comes next.

## Implementation notes

The reader of a list between commas stops in front of the closing sign also where a comma stands
there. Whether the list is then a phrase is left open by `trailing`, as everywhere; the readers are
right for any such permission that is given where `TrailingComma` holds of their lexemes.
-/

namespace MetaAttack

variable {α β : Type} {n k : Nat} {a : α} {b : β} {ts us rest left : List Lexeme} {eof s : Span}
variable {t : Sign}

namespace Reads

theorem of_pure {p : Parsed α n} (h : Reads (.ok p) a rest) : p.value = a ∧ p.rest = rest := by
  obtain ⟨_, h⟩ := h
  cases h
  exact ⟨rfl, rfl⟩

/-- An error reads nothing. -/
theorem not_error {e : ParseError} :
    ¬ Reads (.error e : Except ParseError (Parsed α n)) a rest := by
  intro h
  obtain ⟨_, h⟩ := h
  cases h

/-- A reader yields one value and leaves one rest. -/
theorem unique {r : Except ParseError (Parsed α n)} {a' : α} {rest' : List Lexeme}
    (h : Reads r a rest) (h' : Reads r a' rest') : a = a' ∧ rest = rest' := by
  obtain ⟨_, rfl⟩ := h
  exact of_pure h'

/-- What is read is the outcome, the error forgotten. -/
theorem iff_toOption {r : Except ParseError (Parsed α n)} :
    Reads r a rest ↔ r.toOption.map (fun p => (p.value, p.rest)) = some (a, rest) := by
  constructor
  · rintro ⟨_, rfl⟩
    rfl
  · cases r with
    | error e => exact fun h => nomatch h
    | ok p =>
        rintro ⟨⟩
        exact .pure p

instance [DecidableEq α] (r : Except ParseError (Parsed α n)) (a : α) (rest : List Lexeme) :
    Decidable (Reads r a rest) :=
  decidable_of_iff _ iff_toOption.symm

/-- What is read in two parts is read part by part. -/
theorem of_bind {r : Except ParseError (Parsed α n)}
    {f : Parsed α n → Except ParseError (Parsed β k)} (h : Reads (r >>= f) b left) :
    ∃ a rest lt, Reads r a rest ∧ Reads (f ⟨a, rest, lt⟩) b left := by
  cases r with
  | error e => exact absurd h not_error
  | ok p => exact ⟨p.value, p.rest, p.rest_lt, .pure p, h⟩

/-- Undoes a conversion of the value that was read. -/
theorem of_map {r : Except ParseError (Parsed α n)} {f : Parsed α n → Parsed β k}
    (h : Reads (r.map f) b left) :
    ∃ a rest lt, Reads r a rest ∧ (f ⟨a, rest, lt⟩).value = b ∧ (f ⟨a, rest, lt⟩).rest = left := by
  cases r with
  | error e => exact absurd h not_error
  | ok p => exact ⟨p.value, p.rest, p.rest_lt, .pure p, of_pure h⟩

/-- A result that only keeps another count of lexemes is the result that was read. -/
theorem of_recount {r : Except ParseError (Parsed α n)} {g : Parsed α n → Parsed α k}
    (h : Reads (r >>= fun p => .ok (g p)) a left)
    (same : ∀ p, (g p).value = p.value ∧ (g p).rest = p.rest) : Reads r a left := by
  obtain ⟨a', rest, lt, read, h⟩ := h.of_bind
  obtain ⟨hvalue, hrest⟩ := h.of_pure
  rw [(same _).1] at hvalue
  rw [(same _).2] at hrest
  rwa [← hvalue, ← hrest]

end Reads

/-! ### Lexemes -/

/-- What was read off a token was its first lexeme. -/
theorem of_reads_accept {f : Token → Option α} {refuse : Lexeme → ParseError}
    {expected : Expected} {x : α × Span} (h : Reads (accept f refuse expected eof ts) x rest) :
    ∃ l, ts = l :: rest ∧ f l.token = some x.1 ∧ l.span = x.2 := by
  obtain ⟨_, h⟩ := h
  exact accept_eq_ok_iff.mp h

/-- The expected token stood there. -/
theorem of_reads_exactly {t : Token} (h : Reads (exactly t eof ts) s rest) :
    ts = ⟨t, s⟩ :: rest := by
  obtain ⟨x, r, _, accepted, hs, hr⟩ := h.of_map
  obtain ⟨l, hts, same, hspan⟩ := of_reads_accept accepted
  have token : l.token = t := by
    split at same
    · assumption
    · cases same
  calc ts
    _ = l :: r := hts
    _ = ⟨t, s⟩ :: rest := by rw [← token, ← hs, ← hr]; exact congrArg (⟨l.token, ·⟩ :: r) hspan

theorem of_reads_sign (h : Reads (sign t eof ts) s rest) : ts = ⟨.sign t, s⟩ :: rest :=
  of_reads_exactly h

/-- A name was read off a lexeme of this name. -/
theorem of_reads_ident {name : Ident} (h : Reads (ident eof ts) name rest) :
    ts = ⟨.ident name.name, name.span⟩ :: rest := by
  obtain ⟨⟨n, s'⟩, r, _, accepted, hs, hr⟩ := h.of_map
  obtain ⟨⟨token, span⟩, hts, same, hspan⟩ := of_reads_accept accepted
  cases hs
  cases hr
  cases hspan
  cases token with
  | ident m =>
      cases same
      exact hts
  | keyword _ | sign _ | integer _ | string _ => cases same

theorem of_reads_stringLiteral {x : String × Span} (h : Reads (stringLiteral eof ts) x rest) :
    ts = ⟨.string x.1, x.2⟩ :: rest := by
  obtain ⟨⟨token, span⟩, hts, same, hspan⟩ := of_reads_accept h
  obtain ⟨v, s'⟩ := x
  cases hspan
  cases token with
  | string m =>
      cases same
      exact hts
  | keyword _ | sign _ | integer _ | ident _ => cases same

/-- A sign that was taken stood there. -/
theorem of_sign? {p : Parsed Span ts.length} (h : sign? t ts = some p) :
    ts = ⟨.sign t, p.value⟩ :: p.rest := by
  cases ts with
  | nil => cases h
  | cons l r =>
      rw [sign?] at h
      split at h
      · next same =>
        cases h
        exact congrArg (fun u => Lexeme.mk u l.span :: r) same
      · cases h

theorem of_sign?_isSome (h : (sign? t ts).isSome) : ∃ s r, ts = ⟨.sign t, s⟩ :: r := by
  obtain ⟨p, hp⟩ := Option.isSome_iff_exists.mp h
  exact ⟨p.value, p.rest, of_sign? hp⟩

/-! ### Lists -/

/-- A comma stands right in front of a closing brace or parenthesis. -/
def TrailingComma (ts : List Lexeme) : Prop :=
  ∃ before s t s' rest, t ∈ [Sign.rbrace, Sign.rparen] ∧
    ts = before ++ ⟨.sign .comma, s⟩ :: ⟨.sign t, s'⟩ :: rest

/-- A comma in front of a closing sign stays there, whatever comes before it. -/
theorem TrailingComma.append_left (h : TrailingComma ts) (us : List Lexeme) :
    TrailingComma (us ++ ts) := by
  obtain ⟨before, s, t, s', rest, ht, rfl⟩ := h
  exact ⟨us ++ before, s, t, s', rest, ht, (List.append_assoc ..).symm⟩

/-- The reader takes phrases off the front of its lexemes. -/
def Takes (read : Span → (ts : List Lexeme) → Except ParseError (Parsed α ts.length))
    (P : Phrase α) : Prop :=
  ∀ ⦃eof ts a rest⦄, Reads (read eof ts) a rest → ∃ us, ts = us ++ rest ∧ P us a

section CommaSeparated

variable {P : Phrase α} {close : Sign} {as : List α}
variable {item : Span → (ts : List Lexeme) → Except ParseError (Parsed α ts.length)}

/-- What is read where the closing sign does not come at once is a list of phrases, and behind it a
comma may stand if the closing sign is next. -/
theorem listed_of_reads (items : Takes item P)
    (h : Reads (commaSeparated item close eof ts) as rest) (opened : sign? close ts = none) :
    ∃ us, Listed P us as ∧
      (ts = us ++ rest ∨
        ∃ s, ts = us ++ ⟨.sign .comma, s⟩ :: rest ∧ (sign? close rest).isSome) := by
  induction ts using commaSeparated.induct (α := α) close generalizing as with
  | case1 ts closed =>
      rw [opened] at closed
      cases closed
  | case2 ts _ ih =>
      rw [commaSeparated, opened, if_neg (by simp)] at h
      obtain ⟨x, r, lt, first, h⟩ := h.of_bind
      obtain ⟨us, rfl, phrase⟩ := items first
      dsimp only at h
      split at h
      · next comma hcomma =>
        obtain ⟨xs, r', _, more, h⟩ := h.of_bind
        have hr := of_sign? hcomma
        obtain ⟨rfl, rfl⟩ : x :: xs = as ∧ r' = rest := h.of_pure
        -- Whether a comma ends the list is seen only behind it.
        cases closing : sign? close comma.rest with
        | some p =>
            rw [commaSeparated, closing] at more
            obtain ⟨rfl, rfl⟩ : [] = xs ∧ comma.rest = r' := more.of_pure
            refine ⟨us, .last phrase, .inr ⟨comma.value, congrArg (us ++ ·) hr, ?_⟩⟩
            rw [closing, Option.isSome_some]
        | none =>
            obtain ⟨vs, listed, behind⟩ := ih ⟨x, r, lt⟩ comma more closing
            refine ⟨us ++ ⟨.sign .comma, comma.value⟩ :: vs, .cons phrase listed, ?_⟩
            rcases behind with h | ⟨s, h, closed⟩
            · left
              rw [List.append_assoc, List.cons_append, ← h, ← hr]
            · refine .inr ⟨s, ?_, closed⟩
              rw [List.append_assoc, List.cons_append, ← h, ← hr]
      · obtain ⟨rfl, rfl⟩ : [x] = as ∧ r = rest := h.of_pure
        exact ⟨us, .last phrase, .inl rfl⟩

/-- What is read of a list is one, where a comma is allowed behind its last item if one stands in
front of a closing sign. -/
theorem commaSeparated_of_reads {trailing : Prop} (items : Takes item P)
    (closes : close ∈ [Sign.rbrace, Sign.rparen]) (allowed : TrailingComma ts → trailing)
    (h : Reads (commaSeparated item close eof ts) as rest) :
    ∃ us, ts = us ++ rest ∧ CommaSeparated trailing P us as := by
  cases opened : sign? close ts with
  | some p =>
      rw [commaSeparated, opened] at h
      obtain ⟨rfl, rfl⟩ : [] = as ∧ ts = rest := h.of_pure
      exact ⟨[], rfl, .empty⟩
  | none =>
      obtain ⟨us, listed, rfl | ⟨s, rfl, closed⟩⟩ := listed_of_reads items h opened
      · exact ⟨us, rfl, .listed listed⟩
      · obtain ⟨s', r, rfl⟩ := of_sign?_isSome closed
        have trailing := allowed ⟨us, s, close, s', r, closes, rfl⟩
        exact ⟨us ++ [⟨.sign .comma, s⟩], by simp, .closed trailing listed⟩

end CommaSeparated

end MetaAttack
