import MetaAttack.Proofs.Consuming
import MetaAttack.Proofs.Grammar

/-!
# No comma behind the last item

Where the grammar does not allow a comma behind the last item of a list, no phrase has a comma right
in front of a closing brace or parenthesis, wherever the two stand in it.

## Implementation notes

Two phrases side by side could still have a comma at the end of the first and a closing sign at the
start of the second. `Tidy` therefore also says that the comma is not last, and then tidy phrases
side by side are tidy.
-/

namespace MetaAttack

variable {α : Type} {a : α} {as : List α} {l : Lexeme} {ts us : List Lexeme} {s : Span}

/-- The phrase starts with something else than a closing brace or parenthesis. -/
def Starts (ts : List Lexeme) : Prop :=
  ∃ l ∈ ts.head?, l.token ≠ .sign .rbrace ∧ l.token ≠ .sign .rparen

/-- Whether a text starts like an entry is seen from its first lexeme. -/
@[simp] theorem starts_cons :
    Starts (l :: ts) ↔ l.token ≠ .sign .rbrace ∧ l.token ≠ .sign .rparen := by
  simp [Starts]

/-- What starts a text starts every longer one. -/
theorem Starts.append (h : Starts ts) (us : List Lexeme) : Starts (ts ++ us) := by
  obtain ⟨l, head, starts⟩ := h
  refine ⟨l, ?_, starts⟩
  rw [List.head?_append, head, Option.some_or]
  rfl

/-- Behind every comma something else comes than a closing brace or parenthesis. -/
inductive Tidy : List Lexeme → Prop
  | nil : Tidy []
  | cons {l : Lexeme} {ts : List Lexeme} (other : l.token ≠ .sign .comma) (more : Tidy ts) :
      Tidy (l :: ts)
  | comma {s : Span} {ts : List Lexeme} (starts : Starts ts) (more : Tidy ts) :
      Tidy (⟨.sign .comma, s⟩ :: ts)

attribute [simp] Tidy.nil

@[simp] theorem tidy_cons (h : l.token ≠ .sign .comma) : Tidy (l :: ts) ↔ Tidy ts := by
  constructor
  · intro tidy
    cases tidy with
    | cons _ more => exact more
    | comma => exact absurd rfl h
  · exact .cons h

/-- A comma is in order if an entry comes behind it. -/
@[simp] theorem tidy_comma : Tidy (⟨.sign .comma, s⟩ :: ts) ↔ Starts ts ∧ Tidy ts := by
  constructor
  · intro tidy
    cases tidy with
    | cons other => exact absurd rfl other
    | comma starts more => exact ⟨starts, more⟩
  · exact fun ⟨starts, more⟩ => .comma starts more

/-- Tidy texts stay so next to each other: a comma at the end of the first one is untidy by
itself. -/
theorem Tidy.append (h : Tidy ts) (more : Tidy us) : Tidy (ts ++ us) := by
  induction h with
  | nil => exact more
  | cons other _ ih => exact .cons other ih
  | comma starts _ ih => exact .comma (starts.append us) ih

/-- In a tidy phrase no comma is in front of a closing sign. -/
theorem Tidy.not_trailingComma (h : Tidy ts) : ¬ TrailingComma ts := by
  rintro ⟨before, s, t, s', rest, closes, rfl⟩
  induction before with
  | nil =>
      have starts : Starts (⟨.sign t, s'⟩ :: rest) := (tidy_comma.mp h).1
      simp at closes starts
      exact closes.elim starts.1 starts.2
  | cons l before ih =>
      cases h with
      | cons _ more | comma _ more => exact ih more

/-! ### Combinations of phrases -/

section Phrases

variable {P : Phrase α}

/-- Entries without commas between them. -/
theorem Many.tidy (items : ∀ ⦃ts a⦄, P ts a → Tidy ts) (h : Many P ts as) : Tidy ts := by
  induction h with
  | nil => exact .nil
  | cons first _ ih => exact (items first).append ih

theorem Optional.tidy {a : Option α} (items : ∀ ⦃ts a⦄, P ts a → Tidy ts) (h : Optional P ts a) :
    Tidy ts := by
  cases h with
  | absent => exact .nil
  | present h => exact items h

/-- Every item of a list has to start properly, as a comma may be in front of it. -/
theorem Listed.tidy (items : ∀ ⦃ts a⦄, P ts a → Tidy ts) (starts : ∀ ⦃ts a⦄, P ts a → Starts ts)
    (h : Listed P ts as) : Starts ts ∧ Tidy ts := by
  induction h with
  | last h => exact ⟨starts h, items h⟩
  | cons first _ ih => exact ⟨(starts first).append _, (items first).append (tidy_comma.mpr ih)⟩

/-- Where no comma may stand behind the last entry, a list is as tidy as its entries. -/
theorem CommaSeparated.tidy {trailing : Prop} (never : ¬ trailing)
    (items : ∀ ⦃ts a⦄, P ts a → Tidy ts) (starts : ∀ ⦃ts a⦄, P ts a → Starts ts)
    (h : CommaSeparated trailing P ts as) : Tidy ts := by
  cases h with
  | empty => exact .nil
  | listed h => exact (h.tidy items starts).2
  | closed allowed => exact absurd allowed never

end Phrases

/-! ### Terms -/

theorem SetOp.ne_comma_of_ofToken? {t : Token} {op : SetOp} (h : ofToken? t = some op) :
    t ≠ .sign .comma := by
  rintro rfl
  cases h

/-- Expressions have no commas. -/
theorem Expr.Derives.tidy {level : Level} {e : Expr} (h : Derives level ts e) : Tidy ts := by
  induction h with
  | field | call => simp
  | group _ ih => exact (Tidy.cons (by simp) ih).append (by simp)
  | primary _ ih | operand _ ih | chain _ ih => exact ih
  | closure _ ih | restrict _ ih => exact ih.append (by simp)
  | collect _ _ ih ih' => exact ih.append (.cons (by simp) ih')
  | combine hop _ _ ih ih' => exact ih.append (.cons (SetOp.ne_comma_of_ofToken? hop) ih')

/-- No expression begins with a closing sign. -/
theorem Expr.Derives.starts {level : Level} {e : Expr} (h : Derives level ts e) : Starts ts := by
  induction h with
  | field | call | group => simp
  | primary _ ih | operand _ ih | chain _ ih => exact ih
  | closure _ ih | restrict _ ih | collect _ _ ih | combine _ _ _ ih => exact ih.append _

theorem Expr.tidy_list {es : List Expr} (h : Listed (Derives .sum) ts es) : Tidy ts :=
  (h.tidy (fun _ _ => Derives.tidy) fun _ _ => Derives.starts).2

/-- Numbers have no commas in any of their forms. -/
theorem Numeral.tidy {p : Float × Span} (h : Numeral ts p) : Tidy ts := by
  cases h <;> simp

theorem SignedNumeral.tidy {v : Float} (h : SignedNumeral ts v) : Tidy ts := by
  cases h with
  | positive h => exact h.tidy
  | negative h => exact .cons (by simp) h.tidy

theorem SignedNumeral.starts {v : Float} (h : SignedNumeral ts v) : Starts ts := by
  cases h with
  | positive h => cases h <;> simp
  | negative => simp

theorem TtcOp.ne_comma {t : Token} {op : TtcOp}
    (h : additive? t = some op ∨ multiplicative? t = some op) : t ≠ .sign .comma := by
  rintro rfl
  cases h <;> contradiction

section

variable {trailing : Prop}

/-- The parameters of a distribution are the one place of a time where commas stand. -/
theorem Ttc.Derives.tidy (never : ¬ trailing) {level : Level} {t : Ttc}
    (h : Derives trailing level ts t) : Tidy ts := by
  induction h with
  | number h => exact h.tidy
  | bare => simp
  | applied params =>
      have tidy := params.tidy never (fun _ _ => SignedNumeral.tidy) fun _ _ => SignedNumeral.starts
      exact (Tidy.cons (by simp) (.cons (by simp) tidy)).append (by simp)
  | group _ ih => exact (Tidy.cons (by simp) ih).append (by simp)
  | atom _ ih | power _ ih | product _ ih => exact ih
  | raise _ _ ih ih' => exact ih.append (.cons (by simp) ih')
  | multiply hop _ _ ih ih' => exact ih.append (.cons (TtcOp.ne_comma (.inr hop)) ih')
  | add hop _ _ ih ih' => exact ih.append (.cons (TtcOp.ne_comma (.inl hop)) ih')

/-! ### Steps -/

/-- Remarks end at their strings. -/
theorem Remark.tidy_all {rs : List Remark} (h : Many Derives ts rs) : Tidy ts := by
  apply h.tidy
  intro _ _ h
  cases h
  simp

theorem tidy_tags {tags : List Ident} (h : Many Tag ts tags) : Tidy ts := by
  apply h.tidy
  intro _ _ h
  cases h
  simp

theorem StepKind.Derives.tidy {p : StepKind × Span} (h : StepKind.Derives ts p) : Tidy ts := by
  cases h <;> simp

/-- The letters are the one list of a step in braces. -/
theorem Classification.tidy {c : Option Classification} (never : ¬ trailing)
    (h : Optional (Derives trailing) ts c) : Tidy ts := by
  apply h.tidy
  intro _ _ h
  obtain ⟨flags⟩ := h
  have letters : ∀ ⦃ts c⦄, Cia.Derives ts c → Starts ts ∧ Tidy ts := by
    intro _ _ h
    cases h
    simp
  have tidy := flags.tidy never (fun _ _ h => (letters h).2) fun _ _ h => (letters h).1
  exact (Tidy.cons (by simp) tidy).append (by simp)

theorem Ttc.Bracketed.tidy {t : Option Ttc} (never : ¬ trailing) (h : Bracketed trailing ts t) :
    Tidy ts := by
  cases h with
  | absent | empty => simp
  | full h => exact (Tidy.cons (by simp) (h.tidy never)).append (by simp)

theorem Requires.tidy {q : Option Requires} (h : Optional Derives ts q) : Tidy ts := by
  apply h.tidy
  intro _ _ h
  obtain ⟨es⟩ := h
  exact .cons (by simp) (Expr.tidy_list es)

theorem Reaches.tidy {q : Option Reaches} (h : Optional Derives ts q) : Tidy ts := by
  apply h.tidy
  intro _ _ h
  cases h with
  | reaches es | appends es => exact .cons (by simp) (Expr.tidy_list es)

/-- Part by part; commas separate letters, parameters and expressions only. -/
theorem AttackStep.Derives.tidy {s : AttackStep} (never : ¬ trailing) (h : Derives trailing ts s) :
    Tidy ts := by
  obtain ⟨hkind, htags, hcia, httc, hremarks, hrequires, hreaches⟩ := h
  have clauses := (Requires.tidy hrequires).append (Reaches.tidy hreaches)
  have behindCia := (httc.tidy never).append ((Remark.tidy_all hremarks).append clauses)
  have behindTags := (Classification.tidy never hcia).append behindCia
  exact hkind.tidy.append (.cons (by simp) ((tidy_tags htags).append behindTags))

/-! ### Declarations -/

theorem Member.Derives.tidy {m : Member} (never : ¬ trailing) (h : Derives trailing ts m) :
    Tidy ts := by
  cases h with
  | step h => exact h.tidy never
  | binding h =>
      obtain ⟨e⟩ := h
      simpa using e.tidy

end

variable {d : Dialect}

/-- Remarks with a body between braces behind them. -/
theorem Tidy.braced {opening close : Span} (marks : Tidy ts) (body : Tidy us) :
    Tidy (ts ++ ⟨.sign .lbrace, opening⟩ :: (us ++ [⟨.sign .rbrace, close⟩])) :=
  marks.append (.cons (by simp) (body.append (by simp)))

/-- The parts of an asset in front of its members have no commas either. -/
theorem Asset.Named.tidy {isAbstract : Bool} {start : Span} {a : Asset} (never : ¬ d.trailing)
    (h : Named d isAbstract start ts a) : Tidy ts := by
  obtain ⟨hparent, hremarks, hmembers, _⟩ := h
  have parent : Tidy _ := hparent.tidy fun _ _ h => by
    cases h
    simp
  have members := hmembers.tidy fun _ _ h => h.tidy never
  exact .cons (by simp) (parent.append ((Remark.tidy_all hremarks).braced members))

theorem Category.Derives.tidy {c : Category} (never : ¬ d.trailing) (h : Derives d ts c) :
    Tidy ts := by
  obtain ⟨hremarks, hassets⟩ := h
  have assets : Tidy _ := hassets.tidy fun _ _ h => by
    cases h with
    | concrete named => exact .cons (by simp) (named.tidy never)
    | abstract named => exact .cons (by simp) (.cons (by simp) (named.tidy never))
  exact .cons (by simp) (.cons (by simp) ((Remark.tidy_all hremarks).braced assets))

theorem Bound.Derives.tidy {b : Bound} (h : Derives ts b) : Tidy ts := by
  obtain ⟨known⟩ := h
  apply Tidy.cons ?_ .nil
  intro comma
  rw [comma] at known
  cases known

theorem Multiplicity.Derives.tidy {m : Multiplicity} (h : Derives ts m) : Tidy ts := by
  cases h with
  | single h => exact h.tidy
  | range hmin hmax => exact hmin.tidy.append (.cons (by simp) hmax.tidy)

theorem FieldName.tidy {name : Ident} (h : FieldName ts name) : Tidy ts := by
  cases h
  simp

/-- No part of an association is a list. -/
theorem Association.Derives.tidy {a : Association} (h : Derives ts a) : Tidy ts := by
  obtain ⟨hleft, hleftMult, hrightMult, hright, hremarks⟩ := h
  refine .cons (by simp) (hleft.tidy.append (hleftMult.tidy.append ?_))
  refine .cons (by simp) (.cons (by simp) (.cons (by simp) (hrightMult.tidy.append ?_)))
  exact hright.tidy.append (.cons (by simp) (Remark.tidy_all hremarks))

/-- Where the grammar allows no trailing comma, no item has one. -/
theorem Item.Derives.tidy {i : Item} (never : ¬ d.trailing) (h : Derives d ts i) : Tidy ts := by
  cases h with
  | define | inclusion => simp
  | category h => exact h.tidy never
  | associations h =>
      have body := h.tidy fun _ _ => Association.Derives.tidy
      exact .cons (by simp) (Tidy.nil.braced body)

/-- A specification of a dialect without such commas has none. -/
theorem Spec.Derives.not_trailingComma {spec : Spec} (never : ¬ d.trailing)
    (h : Derives d ts spec) : ¬ TrailingComma ts :=
  (Many.tidy (fun _ _ => Item.Derives.tidy never) h).not_trailingComma

end MetaAttack
