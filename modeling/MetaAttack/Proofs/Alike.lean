import Mathlib.Logic.Basic
import MetaAttack.Proofs.Relocation

/-!
# Readers and the places of lexemes

Two lists of lexemes are alike when they hold the same tokens in places that look the same, and
agree on which digits, dot and digits touch each other. A reader respects this when it gives, for
lists that are alike, values that look the same with rests that are alike, or errors that look the
same. So it decides by tokens alone, except for that one question of touching.

## Implementation notes

What looks the same is left to a pair of functions on spans, one for each list, that go along with
merging. A value is looked at by relocating it.
-/

namespace MetaAttack

/-- Two ways to look at spans, one for each of two sources. How a merged span looks depends only on
how its parts look. -/
structure Views where
  left : Span → Span
  right : Span → Span
  merge {a b a' b' : Span} (ha : left a = right a') (hb : left b = right b') :
    left (a.merge b) = right (a'.merge b')

/-- Digits, a dot and digits come first, and they touch each other. -/
def Touching : List Lexeme → Prop
  | ⟨.integer _, s⟩ :: ⟨.sign .dot, d⟩ :: ⟨.integer _, s'⟩ :: _ =>
      d.start = s.stop ∧ s'.start = d.stop
  | _ => False

/-- The lists have the same tokens in places that look the same, and agree on which of them touch
each other. -/
inductive Alike (v : Views) : List Lexeme → List Lexeme → Prop
  | nil : Alike v [] []
  | cons {t : Token} {s s' : Span} {ts ts' : List Lexeme} (span : v.left s = v.right s')
      (touching : Touching (⟨t, s⟩ :: ts) ↔ Touching (⟨t, s'⟩ :: ts')) (more : Alike v ts ts') :
      Alike v (⟨t, s⟩ :: ts) (⟨t, s'⟩ :: ts')

/-- The results look the same: both are values with rests that are alike, or both are errors. -/
inductive Agree {α : Type} {n n' : Nat} (v : Views) (move : (Span → Span) → α → α) :
    Except ParseError (Parsed α n) → Except ParseError (Parsed α n') → Prop
  | ok {p : Parsed α n} {p' : Parsed α n'} (value : move v.left p.value = move v.right p'.value)
      (rest : Alike v p.rest p'.rest) : Agree v move (.ok p) (.ok p')
  | error {e e' : ParseError} (h : e.relocate v.left = e'.relocate v.right) :
      Agree v move (.error e) (.error e')

/-- The reader gives results that look the same for lists that are alike. -/
def Views.Respected {α : Type} {k : List Lexeme → Nat} (v : Views) (move : (Span → Span) → α → α)
    (read : Span → (ts : List Lexeme) → Except ParseError (Parsed α (k ts))) : Prop :=
  ∀ ⦃eof eof' ts ts'⦄, v.left eof = v.right eof' → Alike v ts ts' →
    Agree v move (read eof ts) (read eof' ts')

variable {α β : Type} {n n' k k' : Nat} {v : Views} {ts ts' : List Lexeme} {eof eof' : Span}
variable {move : (Span → Span) → α → α} {move' : (Span → Span) → β → β}

/-- What comes first in the second list comes first in the other. -/
theorem Alike.starts {t : Token} {s' : Span} {r' : List Lexeme} (h : Alike v ts (⟨t, s'⟩ :: r')) :
    ∃ s r, ts = ⟨t, s⟩ :: r ∧ Alike v r r' := by
  cases h with
  | cons _ _ more => exact ⟨_, _, rfl, more⟩

/-- A list that looks like another begins with the same token. -/
theorem Alike.ahead {t : Token} {s : Span} {r : List Lexeme} (h : Alike v (⟨t, s⟩ :: r) ts') :
    ∃ s' r', ts' = ⟨t, s'⟩ :: r' ∧ v.left s = v.right s' ∧ Alike v r r' := by
  cases h with
  | cons span _ more => exact ⟨_, _, rfl, span, more⟩

/-- What does not come first in the first list does not in the other. -/
theorem Alike.ne_cons {t : Token} (h : Alike v ts ts') (other : ∀ s r, ts = ⟨t, s⟩ :: r → False) :
    ∀ s r, ts' = ⟨t, s⟩ :: r → False := by
  rintro s r rfl
  obtain ⟨_, _, rfl, _⟩ := h.starts
  exact other _ _ rfl

/-- Whether a lexeme has a certain token does not depend on its place. -/
theorem Lexeme.ne_of_ne {t u : Token} {s s' : Span}
    (h : ∀ s₁, Lexeme.mk t s = ⟨u, s₁⟩ → False) : ∀ s₁, Lexeme.mk t s' = ⟨u, s₁⟩ → False := by
  rintro _ ⟨⟩
  exact h _ rfl

theorem fst_alike {x x' : α × Span} (h : Prod.map id v.left x = Prod.map id v.right x') :
    x.1 = x'.1 :=
  (Prod.mk.inj h).1

theorem snd_alike {x x' : α × Span} (h : Prod.map id v.left x = Prod.map id v.right x') :
    v.left x.2 = v.right x'.2 :=
  (Prod.mk.inj h).2

/-! ### Results -/

namespace Agree

/-- Readers one behind the other agree if the second ones agree on all that the first ones can
leave. -/
theorem bind {x : Except ParseError (Parsed α n)} {x' : Except ParseError (Parsed α n')}
    {f : Parsed α n → Except ParseError (Parsed β k)}
    {f' : Parsed α n' → Except ParseError (Parsed β k')} (h : Agree v move x x')
    (next : ∀ p p', move v.left p.value = move v.right p'.value → Alike v p.rest p'.rest →
      Agree v move' (f p) (f' p')) :
    Agree v move' (x >>= f) (x' >>= f') := by
  cases h with
  | ok value rest => exact next _ _ value rest
  | error h => exact .error h

/-- What is made of two values must look the same wherever they do. -/
theorem map {x : Except ParseError (Parsed α n)} {x' : Except ParseError (Parsed α n')}
    {g : α → β} (h : Agree v move x x')
    (same : ∀ a a', move v.left a = move v.right a' → move' v.left (g a) = move' v.right (g a')) :
    Agree v move' (x.map fun p => p.map g) (x'.map fun p => p.map g) := by
  cases h with
  | ok value rest => exact .ok (same _ _ value) rest
  | error h => exact .error h

/-- Results of readers that agree are handed on to what gives results that look the same. -/
theorem relocateResult_bind {x : Except ParseError (Parsed α n)}
    {x' : Except ParseError (Parsed α n')} {f : Parsed α n → Except ParseError β}
    {f' : Parsed α n' → Except ParseError β} (h : Agree v move x x')
    (next : ∀ p p', move v.left p.value = move v.right p'.value → Alike v p.rest p'.rest →
      relocateResult v.left move' (f p) = relocateResult v.right move' (f' p')) :
    relocateResult v.left move' (x >>= f) = relocateResult v.right move' (x' >>= f') := by
  cases h with
  | ok value rest => exact next _ _ value rest
  | error h => exact congrArg Except.error h

end Agree

/-! ### Lexemes -/

/-- Acceptance goes by the token; a refusal may show the lexeme and its place, nothing else. -/
theorem agree_accept {f : Token → Option α} {refuse : Lexeme → ParseError} {expected : Expected}
    (refused : ∀ t s s', v.left s = v.right s' →
      (refuse ⟨t, s⟩).relocate v.left = (refuse ⟨t, s'⟩).relocate v.right)
    (ends : v.left eof = v.right eof') (alike : Alike v ts ts') :
    Agree v (fun g => Prod.map id g) (accept f refuse expected eof ts)
      (accept f refuse expected eof' ts') := by
  cases alike with
  | nil => exact .error (congrArg (ParseError.unexpectedEnd expected) ends)
  | @cons t s s' _ _ span _ more =>
      rw [accept, accept]
      cases f t with
      | none => exact .error (refused t s s' span)
      | some a => exact .ok (congrArg (Prod.mk a) span) more

/-- A token that must come here is there for both sides or for neither. -/
theorem respected_exactly (t : Token) : v.Respected id (exactly t) := by
  intro eof eof' ts ts' ends alike
  refine (agree_accept ?_ ends alike).map fun _ _ same => snd_alike same
  exact fun u _ _ span => congrArg (ParseError.unexpectedToken (.token t) u) span

theorem respected_sign (t : Sign) : v.Respected id (sign t) := respected_exactly (.sign t)

/-- A name is a token of any text, so both sides read the same text. -/
theorem respected_ident : v.Respected Ident.relocate ident := by
  intro eof eof' ts ts' ends alike
  refine (agree_accept ?_ ends alike).map fun _ _ same =>
    congrArg₂ Ident.mk (fst_alike same) (snd_alike same)
  exact fun t _ _ span => congrArg (ParseError.expectedIdent t) span

theorem respected_stringLiteral : v.Respected (fun g => Prod.map id g) stringLiteral := by
  intro eof eof' ts ts' ends alike
  refine agree_accept ?_ ends alike
  exact fun t _ _ span => congrArg (ParseError.expectedString t) span

/-- A sign comes next in both lists or in neither. -/
theorem sign?_alike (t : Sign) (alike : Alike v ts ts') :
    (sign? t ts = none ∧ sign? t ts' = none) ∨
      ∃ p p', sign? t ts = some p ∧ sign? t ts' = some p' ∧ v.left p.value = v.right p'.value ∧
        Alike v p.rest p'.rest := by
  cases alike with
  | nil => exact .inl ⟨rfl, rfl⟩
  | @cons u s s' _ _ span _ more =>
      rw [sign?, sign?]
      by_cases same : u = .sign t
      · rw [if_pos same, if_pos same]
        exact .inr ⟨_, _, rfl, rfl, span, more⟩
      · rw [if_neg same, if_neg same]
        exact .inl ⟨rfl, rfl⟩

/-- An optional sign stands on both sides or on neither. -/
theorem isSome_sign?_alike (t : Sign) (alike : Alike v ts ts') :
    (sign? t ts).isSome = (sign? t ts').isSome := by
  rcases sign?_alike t alike with ⟨h, h'⟩ | ⟨_, _, h, h', _⟩
  · rw [h, h', Option.isSome_none, Option.isSome_none]
  · rw [h, h', Option.isSome_some, Option.isSome_some]

/-- A list between commas is read alike if its items are. -/
theorem respected_commaSeparated {close : Sign}
    {item : Span → (ts : List Lexeme) → Except ParseError (Parsed α ts.length)}
    (items : v.Respected move item) :
    v.Respected (fun g => List.map (move g)) (commaSeparated item close) := by
  intro eof eof' ts ts' ends alike
  induction ts using commaSeparated.induct (α := α) close generalizing ts' with
  | case1 ts closed =>
      have closed' := (isSome_sign?_alike close alike).symm.trans closed
      rw [commaSeparated, commaSeparated, if_pos closed, if_pos closed']
      exact .ok rfl alike
  | case2 ts opened ih =>
      have opened' := isSome_sign?_alike close alike ▸ opened
      rw [commaSeparated, commaSeparated, if_neg opened, if_neg opened']
      refine (items ends alike).bind fun x x' value rest => ?_
      rcases sign?_alike .comma rest with ⟨h, h'⟩ | ⟨comma, comma', h, h', _, behind⟩
      · rw [h, h']
        exact .ok (congrArg (fun a => [a]) value) rest
      · rw [h, h']
        refine (ih x comma behind).bind fun xs xs' values rest => ?_
        exact .ok (congrArg₂ List.cons value values) rest

end MetaAttack
