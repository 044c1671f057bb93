import MetaAttack.Proofs.AlikeSpecs
import MetaAttack.Proofs.Spans

/-!
# Layout

Blanks, line ends and comments move tokens and leave them as they are. Reading goes by the tokens,
and looks at places in one case only: digits, a dot and digits are a decimal number where they touch
each other. So two sources with the same tokens that agree on this are read alike. Both give the
same tree, or both fail for the same reason, each of them with the spans of its own source.
-/

namespace MetaAttack

variable {ts us : List Lexeme} {source source' : String}

/-- Nothing is seen of a place. -/
def Views.blind : Views where
  left _ := .nowhere
  right _ := .nowhere
  merge _ _ := rfl

/-! ### The same tokens -/

/-- Without places, lists are alike when they hold the same tokens and the same tokens touch. -/
theorem alike_blind_iff : Alike .blind ts us ↔
    ts.map Lexeme.token = us.map Lexeme.token ∧
      ∀ i, Touching (ts.drop i) ↔ Touching (us.drop i) := by
  constructor
  · intro alike
    induction alike with
    | nil => exact ⟨rfl, fun _ => Iff.rfl⟩
    | cons span touching more ih =>
        refine ⟨congrArg (List.cons _) ih.1, fun i => ?_⟩
        cases i with
        | zero => exact touching
        | succ i => exact ih.2 i
  · rintro ⟨tokens, touching⟩
    induction ts generalizing us with
    | nil =>
        obtain rfl := List.map_eq_nil_iff.mp tokens.symm
        exact .nil
    | cons l ts ih =>
        obtain ⟨⟨t', s'⟩, us, rfl, token, rest⟩ := List.map_eq_cons_iff.mp tokens.symm
        obtain ⟨t, s⟩ := l
        obtain rfl : t' = t := token
        exact .cons rfl (touching 0) (ih rest.symm fun i => touching (i + 1))

/-! ### Results without places -/

theorem ParseError.reason_relocate (f : Span → Span) (e : ParseError) :
    (e.relocate f).reason = e.reason := by
  cases e <;> rfl

theorem Spec.relocateResult_mk (f : Span → Span) (x : Except ParseError (List Item)) :
    relocateResult f relocate (x.map mk) =
      (relocateResult f (fun g => List.map (Item.relocate g)) x).map mk := by
  cases x <;> rfl

/-- Sources with the same tokens give the same result once all spans are forgotten. -/
theorem Spec.relocateResult_ofSource (lexed : lexemes source = .ok ts)
    (lexed' : lexemes source' = .ok us) (alike : Alike .blind ts us) :
    relocateResult Views.blind.left relocate (ofSource source) =
      relocateResult Views.blind.right relocate (ofSource source') := by
  have items : relocateResult Views.blind.left (fun g => List.map (Item.relocate g))
      (Item.readAll (endOf source ts) ts) =
      relocateResult Views.blind.right (fun g => List.map (Item.relocate g))
        (Item.readAll (endOf source' us) us) := Item.relocate_readAll rfl alike
  have read : ofSource source = (Item.readAll (endOf source ts) ts).map mk := by
    rw [ofSource, lexed]
  have read' : ofSource source' = (Item.readAll (endOf source' us) us).map mk := by
    rw [ofSource, lexed']
  calc relocateResult Views.blind.left relocate (ofSource source)
    _ = (relocateResult Views.blind.left (fun g => List.map (Item.relocate g))
          (Item.readAll (endOf source ts) ts)).map mk := by rw [read, relocateResult_mk]
    _ = (relocateResult Views.blind.right (fun g => List.map (Item.relocate g))
          (Item.readAll (endOf source' us) us)).map mk := congrArg _ items
    _ = relocateResult Views.blind.right relocate (ofSource source') := by
        rw [read', relocateResult_mk]

/-- The layout of a source decides nothing. For two sources with the same tokens that agree, for
digits, a dot and digits in a row, on whether the three touch, reading has one outcome: two trees
that are equal up to spans, or two errors of one kind that say the same behind their line. -/
theorem Spec.ofSource_layout (lexed : lexemes source = .ok ts) (lexed' : lexemes source' = .ok us)
    (tokens : ts.map Lexeme.token = us.map Lexeme.token)
    (touching : ∀ i, Touching (ts.drop i) ↔ Touching (us.drop i)) :
    (∃ spec spec', ofSource source = .ok spec ∧ ofSource source' = .ok spec' ∧
      spec.relocate (fun _ => .nowhere) = spec'.relocate (fun _ => .nowhere)) ∨
    ∃ e f, ofSource source = .error e ∧ ofSource source' = .error f ∧
      e.relocate (fun _ => .nowhere) = f.relocate (fun _ => .nowhere) ∧
      ∃ reason : String, e.message = s!"line {e.span.line}: {reason}" ∧
        f.message = s!"line {f.span.line}: {reason}" := by
  have same := relocateResult_ofSource lexed lexed' (alike_blind_iff.mpr ⟨tokens, touching⟩)
  cases left : ofSource source with
  | ok spec =>
      cases right : ofSource source' with
      | ok spec' =>
          rw [left, right] at same
          exact .inl ⟨spec, spec', rfl, rfl, Except.ok.inj same⟩
      | error e' =>
          rw [left, right] at same
          cases same
  | error e =>
      cases right : ofSource source' with
      | ok spec' =>
          rw [left, right] at same
          cases same
      | error f =>
          rw [left, right] at same
          have moved : e.relocate (fun _ => .nowhere) = f.relocate (fun _ => .nowhere) :=
            Except.error.inj same
          have reason : e.reason = f.reason := by
            rw [← e.reason_relocate fun _ => .nowhere, moved, ParseError.reason_relocate]
          refine .inr ⟨e, f, rfl, rfl, moved, e.reason, rfl, ?_⟩
          rw [ParseError.message, reason]

/-! ### A step with a decimal number -/

instance : DecidablePred Touching := fun ts => by
  unfold Touching
  split <;> infer_instance

namespace Layout

/-- A specification on one line. -/
def dense : String := "category C\x7basset A\x7b|s[Exponential(1.5)]\x7d\x7d"

/-- The same specification with blanks, line ends and comments between its tokens. -/
def airy : String :=
  "category C \x7b // all of it\n  asset A \x7b\n    | s [Exponential( /* mean */ 1.5 )]\n" ++
    "  \x7d\n\x7d\n"

/-- The dense specification with a blank inside of its number. -/
def torn : String := "category C\x7basset A\x7b|s[Exponential(1 .5)]\x7d\x7d"

end Layout

theorem touching_of_lt (h : ∀ i < max ts.length us.length,
    (Touching (ts.drop i) ↔ Touching (us.drop i))) (i : Nat) :
    Touching (ts.drop i) ↔ Touching (us.drop i) := by
  by_cases inside : i < max ts.length us.length
  · exact h i inside
  · rw [List.drop_eq_nil_of_le (by omega), List.drop_eq_nil_of_le (by omega)]

theorem Spec.ofSource_layout_decimal :
    ∃ ts us, lexemes Layout.dense = .ok ts ∧ lexemes Layout.airy = .ok us ∧
      ts.map Lexeme.token = us.map Lexeme.token ∧
      (∀ i, Touching (ts.drop i) ↔ Touching (us.drop i)) ∧
      ∃ spec spec', ofSource Layout.dense = .ok spec ∧ ofSource Layout.airy = .ok spec' ∧
        spec.relocate (fun _ => .nowhere) = spec'.relocate (fun _ => .nowhere) := by
  have same : ∃ ts us, lexemes Layout.dense = .ok ts ∧ lexemes Layout.airy = .ok us ∧
      ts.map Lexeme.token = us.map Lexeme.token ∧
      ∀ i < max ts.length us.length, (Touching (ts.drop i) ↔ Touching (us.drop i)) :=
    ⟨(lexemes Layout.dense).toOption.getD [], (lexemes Layout.airy).toOption.getD [],
      by decide +kernel⟩
  have read : (ofSource Layout.dense).isOk = true := by decide +kernel
  obtain ⟨ts, us, lexed, lexed', tokens, touching⟩ := same
  have everywhere := touching_of_lt touching
  refine ⟨ts, us, lexed, lexed', tokens, everywhere, ?_⟩
  rcases ofSource_layout lexed lexed' tokens everywhere with both | ⟨e, _, failed, _⟩
  · exact both
  · rw [failed] at read
    cases read

/-- Digits, dot and digits that come apart are no number: the tokens are those of the dense
specification, and the source is refused. -/
example :
    (lexemes Layout.torn).map (List.map Lexeme.token) =
        (lexemes Layout.dense).map (List.map Lexeme.token) ∧
      (Spec.ofSource Layout.dense).isOk = true ∧ (Spec.ofSource Layout.torn).isOk = false := by
  decide +kernel

end MetaAttack
