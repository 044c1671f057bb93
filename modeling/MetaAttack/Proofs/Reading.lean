import MetaAttack.Spec.Parsed

/-!
# What readers read

A reader is right about a phrase when, given the lexemes of the phrase with more behind them, it
yields what the phrase stands for and leaves what is behind. Where a phrase may go on, a reader
decides by the next lexeme, so it has to be known which signs do not come next.

## Implementation notes

Phrases are relations between lexemes and what they stand for. The lexemes, not only their tokens,
are needed because a fraction has to touch the digits before it, and the values carry their spans.
-/

namespace MetaAttack

variable {α β : Type} {n k : Nat} {a : α} {b : β} {ts us rest left : List Lexeme} {eof s : Span}
variable {t : Sign} {ss : List Sign}

/-- The reader succeeds with the value and leaves these lexemes. -/
def Reads (r : Except ParseError (Parsed α n)) (a : α) (rest : List Lexeme) : Prop :=
  ∃ h, r = .ok ⟨a, rest, h⟩

namespace Reads

theorem pure (p : Parsed α n) : Reads (.ok p) p.value p.rest := ⟨p.rest_lt, rfl⟩

/-- A reader that goes on from what the first one has left. -/
theorem bind {r : Except ParseError (Parsed α n)}
    {f : Parsed α n → Except ParseError (Parsed β k)} (h : Reads r a rest)
    (hf : ∀ h, Reads (f ⟨a, rest, h⟩) b left) : Reads (r >>= f) b left := by
  obtain ⟨h, rfl⟩ := h
  exact hf h

end Reads

/-! ### Lexemes -/

/-- A token that is accepted is the value, with the place where it stands. -/
theorem reads_accept {f : Token → Option α} {refuse : Lexeme → ParseError} {expected : Expected}
    {l : Lexeme} (h : f l.token = some a) :
    Reads (accept f refuse expected eof (l :: rest)) (a, l.span) rest := by
  rw [accept, h]
  exact .pure _

/-- The expected token is read whatever comes behind it. -/
theorem reads_exactly (t : Token) (s eof : Span) (rest : List Lexeme) :
    Reads (exactly t eof (⟨t, s⟩ :: rest)) s rest := by
  simp [exactly, accept, Reads, Except.map, Parsed.map, Parsed.leaving]

theorem reads_sign (t : Sign) (s eof : Span) (rest : List Lexeme) :
    Reads (sign t eof (⟨.sign t, s⟩ :: rest)) s rest :=
  reads_exactly (.sign t) s eof rest

/-- A name is read as it is written. -/
theorem reads_ident (name : String) (s eof : Span) (rest : List Lexeme) :
    Reads (ident eof (⟨.ident name, s⟩ :: rest)) ⟨name, s⟩ rest := by
  simp [ident, accept, Reads, Except.map, Parsed.map, Parsed.leaving]

theorem reads_stringLiteral (value : String) (s eof : Span) (rest : List Lexeme) :
    Reads (stringLiteral eof (⟨.string value, s⟩ :: rest)) (value, s) rest :=
  reads_accept rfl

/-! ### What does not come next -/

/-- None of the signs comes first. -/
def Avoids (ss : List Sign) (ts : List Lexeme) : Prop :=
  ∀ l ∈ ts.head?, ∀ t ∈ ss, l.token ≠ .sign t

/-- There is always a sign that does not come first. -/
@[simp] theorem avoids_none (ts : List Lexeme) : Avoids [] ts := by simp [Avoids]

@[simp] theorem avoids_nil (ss : List Sign) : Avoids ss [] := by simp [Avoids]

/-- Only the first lexeme matters. -/
@[simp] theorem avoids_cons {l : Lexeme} : Avoids ss (l :: ts) ↔ ∀ t ∈ ss, l.token ≠ .sign t := by
  simp [Avoids]

/-- Avoiding more signs is asking for more. -/
theorem Avoids.mono {more : List Sign} (h : Avoids more ts) (fewer : ss ⊆ more) : Avoids ss ts :=
  fun l hl t ht => h l hl t (fewer ht)

theorem Avoids.ne (h : Avoids ss ts) (ht : t ∈ ss) : ts ≠ ⟨.sign t, s⟩ :: rest := by
  rintro rfl
  exact avoids_cons.mp h t ht rfl

/-- The phrase starts with one of the signs, with no sign, or is empty. -/
def Opens (ss : List Sign) (ts : List Lexeme) : Prop :=
  ∀ l ∈ ts.head?, ∀ t, l.token = .sign t → t ∈ ss

@[simp] theorem opens_nil (ss : List Sign) : Opens ss [] := by simp [Opens]

/-- A list that opens with one of the signs, or with no sign at all. -/
@[simp] theorem opens_cons {l : Lexeme} :
    Opens ss (l :: ts) ↔ ∀ t, l.token = .sign t → t ∈ ss := by
  simp [Opens]

/-- What comes first is the start of the phrase or, where it is empty, of what is behind. -/
theorem Avoids.append {more : List Sign} (h : Avoids more rest) (opens : Opens ss ts)
    (apart : ∀ t ∈ ss, t ∉ more) : Avoids more (ts ++ rest) := by
  cases ts with
  | nil => exact h
  | cons l ts =>
      rw [List.cons_append, avoids_cons]
      exact fun t ht hl => apart t (opens_cons.mp opens t hl) ht

/-- An optional sign is not taken where another lexeme stands. -/
theorem sign?_of_avoids (h : Avoids ss ts) (ht : t ∈ ss) : sign? t ts = none := by
  cases ts with
  | nil => rfl
  | cons l ts => rw [sign?, if_neg (avoids_cons.mp h t ht)]

/-- An optional sign is taken where it stands. -/
theorem sign?_self (t : Sign) (s : Span) (rest : List Lexeme) :
    sign? t (⟨.sign t, s⟩ :: rest) = some (.leaving s rest) := by
  rw [sign?, if_pos rfl]

/-! ### Phrases -/

/-- What the lexemes of a phrase can stand for. -/
abbrev Phrase (α : Type) : Type := List Lexeme → α → Prop

/-- Any number of phrases in a row. -/
inductive Many (P : Phrase α) : Phrase (List α)
  | nil : Many P [] []
  | cons {ts us : List Lexeme} {a : α} {as : List α} (first : P ts a) (more : Many P us as) :
      Many P (ts ++ us) (a :: as)

/-- A phrase, or nothing. -/
inductive Optional (P : Phrase α) : Phrase (Option α)
  | absent : Optional P [] none
  | present {ts : List Lexeme} {a : α} (h : P ts a) : Optional P ts (some a)

/-- One or more phrases with commas between them. -/
inductive Listed (P : Phrase α) : Phrase (List α)
  | last {ts : List Lexeme} {a : α} (h : P ts a) : Listed P ts [a]
  | cons {ts us : List Lexeme} {a : α} {as : List α} {s : Span} (first : P ts a)
      (more : Listed P us as) : Listed P (ts ++ ⟨.sign .comma, s⟩ :: us) (a :: as)

/-- Phrases with commas between them, or nothing; where it is allowed, a comma may also stand behind
the last phrase. -/
inductive CommaSeparated (trailing : Prop) (P : Phrase α) : Phrase (List α)
  | empty : CommaSeparated trailing P [] []
  | listed {ts : List Lexeme} {as : List α} (h : Listed P ts as) : CommaSeparated trailing P ts as
  | closed {ts : List Lexeme} {as : List α} {s : Span} (allowed : trailing) (h : Listed P ts as) :
      CommaSeparated trailing P (ts ++ [⟨.sign .comma, s⟩]) as

section CommaSeparated

variable {P : Phrase α} {close : Sign} {as : List α}
variable {item : Span → (ts : List Lexeme) → Except ParseError (Parsed α ts.length)}

/-- The closing sign at once is the empty list. -/
theorem reads_commaSeparated_nil :
    Reads (commaSeparated item close eof (⟨.sign close, s⟩ :: rest)) []
      (⟨.sign close, s⟩ :: rest) := by
  rw [commaSeparated, sign?_self]
  exact .pure _

/-- Without a comma behind it, an entry is the last one; the closing sign is left to the caller. -/
theorem reads_commaSeparated_last (starts : Avoids [close] ts) (first : Reads (item eof ts) a rest)
    (single : Avoids [.comma] rest) : Reads (commaSeparated item close eof ts) [a] rest := by
  rw [commaSeparated, sign?_of_avoids starts List.mem_cons_self]
  refine first.bind fun _ => ?_
  dsimp only
  rw [sign?_of_avoids single List.mem_cons_self]
  exact .pure _

/-- With a comma behind it, whatever is left is a list again, possibly the empty one. -/
theorem reads_commaSeparated_cons (starts : Avoids [close] ts)
    (first : Reads (item eof ts) a (⟨.sign .comma, s⟩ :: us))
    (more : Reads (commaSeparated item close eof us) as rest) :
    Reads (commaSeparated item close eof ts) (a :: as) rest := by
  rw [commaSeparated, sign?_of_avoids starts List.mem_cons_self]
  refine first.bind fun _ => ?_
  dsimp only
  rw [sign?_self]
  exact more.bind fun _ => .pure _

/-- The item of a list is read where a comma or the closing sign follows, and does not start with
the closing sign. -/
structure ReadsItem (item : Span → (ts : List Lexeme) → Except ParseError (Parsed α ts.length))
    (P : Phrase α) (close : Sign) : Prop where
  apart : close ≠ .comma
  starts : ∀ {ts a rest}, P ts a → Avoids [close] (ts ++ rest)
  reads : ∀ {eof ts a t s rest}, P ts a → t = .comma ∨ t = close →
    Reads (item eof (ts ++ ⟨.sign t, s⟩ :: rest)) a (⟨.sign t, s⟩ :: rest)

/-- Entries with commas between them are read up to the closing sign. -/
theorem Listed.reads (items : ReadsItem item P close) (h : Listed P ts as) :
    Reads (commaSeparated item close eof (ts ++ ⟨.sign close, s⟩ :: rest)) as
      (⟨.sign close, s⟩ :: rest) := by
  induction h with
  | last h =>
      have single : Avoids [.comma] (⟨.sign close, s⟩ :: rest) := by simpa using items.apart
      exact reads_commaSeparated_last (items.starts h) (items.reads h (.inr rfl)) single
  | cons h _ ih =>
      rw [List.append_assoc, List.cons_append]
      exact reads_commaSeparated_cons (items.starts h) (items.reads h (.inl rfl)) ih

/-- A comma behind the last entry changes nothing. -/
theorem Listed.reads_closed {comma : Span} (items : ReadsItem item P close) (h : Listed P ts as) :
    Reads (commaSeparated item close eof
      (ts ++ ⟨.sign .comma, comma⟩ :: ⟨.sign close, s⟩ :: rest)) as
      (⟨.sign close, s⟩ :: rest) := by
  induction h with
  | last h =>
      exact reads_commaSeparated_cons (items.starts h) (items.reads h (.inl rfl))
        reads_commaSeparated_nil
  | cons h _ ih =>
      rw [List.append_assoc, List.cons_append]
      exact reads_commaSeparated_cons (items.starts h) (items.reads h (.inl rfl)) ih

/-- A list between commas is read up to the closing sign. -/
theorem CommaSeparated.reads {trailing : Prop} (items : ReadsItem item P close)
    (h : CommaSeparated trailing P ts as) :
    Reads (commaSeparated item close eof (ts ++ ⟨.sign close, s⟩ :: rest)) as
      (⟨.sign close, s⟩ :: rest) := by
  cases h with
  | empty => exact reads_commaSeparated_nil
  | listed h => exact h.reads items
  | closed _ h =>
      rw [List.append_assoc, List.singleton_append]
      exact h.reads_closed items

end CommaSeparated

end MetaAttack
