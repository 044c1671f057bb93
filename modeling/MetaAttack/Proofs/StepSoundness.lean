import MetaAttack.Proofs.StepGrammar
import MetaAttack.Proofs.TermSoundness

/-!
# Attack steps that are read

Each part of an attack step is read off the lexemes of a phrase for it, also where the part is
missing and the phrase is empty. The parts stand in the order of the grammar, so their phrases put
together are a phrase for the step.
-/

namespace MetaAttack

variable {ts rest : List Lexeme} {eof : Span} {trailing : Prop}

/-- Remarks are read as long as they follow each other. -/
theorem remarks_of_reads {rs : List Remark} (h : Reads (Remark.readAll eof ts) rs rest) :
    ∃ us, ts = us ++ rest ∧ Many Remark.Derives us rs ∧ Unremarked rest := by
  induction ts using Remark.readAll.induct generalizing rs with
  | case1 key s word r ih =>
      rw [Remark.readAll] at h
      obtain ⟨colon, r₁, lt, hcolon, h⟩ := h.of_bind
      obtain ⟨value, r₂, lt', hvalue, h⟩ := h.of_bind
      obtain ⟨more, r₃, _, all, h⟩ := h.of_bind
      obtain ⟨rfl, rfl⟩ : ⟨⟨key, s⟩, value.1, s.merge value.2⟩ :: more = rs ∧ r₃ = rest := h.of_pure
      obtain ⟨us, rfl, many, unremarked⟩ := ih ⟨colon, r₁, lt⟩ ⟨value, r₂, lt'⟩ all
      obtain rfl := of_reads_stringLiteral hvalue
      obtain rfl := of_reads_sign hcolon
      exact ⟨[_, _, _, _] ++ us, rfl, .cons .mk many, unremarked⟩
  | case2 ts other =>
      rw [Remark.readAll] at h
      · obtain ⟨rfl, rfl⟩ : [] = rs ∧ ts = rest := h.of_pure
        exact ⟨[], rfl, .nil, other⟩
      · exact other

theorem StepKind.takes_read : Takes StepKind.read StepKind.Derives := by
  intro eof ts p rest h
  rw [StepKind.read.eq_def] at h
  split at h
  · obtain ⟨rfl, rfl⟩ := h.of_pure
    exact ⟨[_], rfl, .anyOf⟩
  · obtain ⟨rfl, rfl⟩ := h.of_pure
    exact ⟨[_], rfl, .allOf⟩
  · obtain ⟨rfl, rfl⟩ := h.of_pure
    exact ⟨[_], rfl, .defense⟩
  · obtain ⟨rfl, rfl⟩ := h.of_pure
    exact ⟨[_], rfl, .existence⟩
  · next s r =>
    obtain ⟨s', r', _, letter, h⟩ := h.of_bind
    obtain ⟨rfl, rfl⟩ : (absence, s.merge s') = p ∧ r' = rest := h.of_pure
    obtain rfl := of_reads_exactly letter
    exact ⟨[_, _], rfl, .absence⟩
  · exact absurd h Reads.not_error
  · exact absurd h Reads.not_error

/-- Tags that were read were written. -/
theorem tags_of_reads {tags : List Ident} (h : Reads (readTags eof ts) tags rest) :
    ∃ us, ts = us ++ rest ∧ Many Tag us tags := by
  induction ts using readTags.induct generalizing tags with
  | case1 s r ih =>
      rw [readTags] at h
      obtain ⟨tag, r₁, lt, name, h⟩ := h.of_bind
      obtain ⟨more, r₂, _, all, h⟩ := h.of_bind
      obtain ⟨rfl, rfl⟩ : tag :: more = tags ∧ r₂ = rest := h.of_pure
      obtain ⟨us, rfl, many⟩ := ih ⟨tag, r₁, lt⟩ all
      obtain rfl := of_reads_ident name
      exact ⟨[_, _] ++ us, rfl, .cons .mk many⟩
  | case2 ts other =>
      rw [readTags] at h
      · obtain ⟨rfl, rfl⟩ : [] = tags ∧ ts = rest := h.of_pure
        exact ⟨[], rfl, .nil⟩
      · exact other

/-- Each letter has one text. -/
theorem Cia.eq_text_of_ofText? {n : String} {c : Cia} (h : ofText? n = some c) : n = c.text := by
  rw [ofText?.eq_def] at h
  split at h
  all_goals cases h
  all_goals rfl

theorem Cia.takes_read : Takes Cia.read Cia.Derives := by
  intro eof ts c rest h
  obtain ⟨name, r, _, letter, h⟩ := h.of_bind
  dsimp only at h
  split at h
  · next c' known =>
    obtain ⟨rfl, rfl⟩ : c' = c ∧ r = rest := h.of_pure
    obtain rfl := of_reads_ident letter
    rw [eq_text_of_ofText? known]
    exact ⟨[_], rfl, .mk⟩
  · exact absurd h Reads.not_error

/-- Letters that were read stood in braces. A comma behind the last one is seen in the text. -/
theorem Classification.of_reads? {c : Option Classification} (allowed : TrailingComma ts → trailing)
    (h : Reads (read? eof ts) c rest) :
    ∃ us, ts = us ++ rest ∧ Optional (Classification.Derives trailing) us c := by
  rw [read?.eq_def] at h
  split at h
  · next opening r =>
    obtain ⟨flags, r₁, _, list, h⟩ := h.of_bind
    obtain ⟨close, r₂, _, hclose, h⟩ := h.of_bind
    obtain ⟨rfl, rfl⟩ : some ⟨flags, opening.merge close⟩ = c ∧ r₂ = rest := h.of_pure
    obtain ⟨us, rfl, letters⟩ := commaSeparated_of_reads Cia.takes_read (by decide)
      (fun comma => allowed (comma.append_left [_])) list
    obtain rfl := of_reads_sign hclose
    exact ⟨_, by simp, .present (.mk letters)⟩
  · obtain ⟨rfl, rfl⟩ : none = c ∧ ts = rest := h.of_pure
    exact ⟨[], rfl, .absent⟩

theorem Ttc.of_reads? {t : Option Ttc} (allowed : TrailingComma ts → trailing)
    (h : Reads (read? eof ts) t rest) : ∃ us, ts = us ++ rest ∧ Bracketed trailing us t := by
  rw [read?.eq_def] at h
  split at h
  · obtain ⟨rfl, rfl⟩ := h.of_pure
    exact ⟨[_, _], rfl, .empty⟩
  · next opening r _ =>
    obtain ⟨u, r₁, _, inner, h⟩ := h.of_bind
    obtain ⟨close, r₂, _, hclose, h⟩ := h.of_bind
    obtain ⟨rfl, rfl⟩ : some u = t ∧ r₂ = rest := h.of_pure
    obtain ⟨us, rfl, derived⟩ :=
      derives_of_reads (fun comma => allowed (comma.append_left [_])) inner
    obtain rfl := of_reads_sign hclose
    have full : Bracketed trailing (⟨.sign .lbracket, opening⟩ :: us ++ [⟨.sign .rbracket, close⟩])
        (some u) := .full derived
    exact ⟨_, by simp, full⟩
  · obtain ⟨rfl, rfl⟩ : none = t ∧ ts = rest := h.of_pure
    exact ⟨[], rfl, .absent⟩

/-- What is required was written behind its sign. -/
theorem Requires.of_reads? {q : Option Requires} (h : Reads (read? eof ts) q rest) :
    ∃ us, ts = us ++ rest ∧ Optional Requires.Derives us q := by
  rw [read?.eq_def] at h
  split at h
  · next s r =>
    obtain ⟨es, r₁, _, list, h⟩ := h.of_bind
    obtain ⟨rfl, rfl⟩ : some ⟨es, s⟩ = q ∧ r₁ = rest := h.of_pure
    obtain ⟨us, rfl, listed⟩ := Expr.takes_readList list
    exact ⟨⟨.sign .requires, s⟩ :: us, rfl, .present (.mk listed)⟩
  · obtain ⟨rfl, rfl⟩ : none = q ∧ ts = rest := h.of_pure
    exact ⟨[], rfl, .absent⟩

theorem Reaches.of_reads? {q : Option Reaches} (h : Reads (read? eof ts) q rest) :
    ∃ us, ts = us ++ rest ∧ Optional Reaches.Derives us q := by
  rw [read?.eq_def] at h
  split at h
  · next s r =>
    obtain ⟨es, r₁, _, list, h⟩ := h.of_bind
    obtain ⟨rfl, rfl⟩ : some ⟨false, es, s⟩ = q ∧ r₁ = rest := h.of_pure
    obtain ⟨us, rfl, listed⟩ := Expr.takes_readList list
    exact ⟨⟨.sign .reaches, s⟩ :: us, rfl, .present (.reaches listed)⟩
  · next s r =>
    obtain ⟨es, r₁, _, list, h⟩ := h.of_bind
    obtain ⟨rfl, rfl⟩ : some ⟨true, es, s⟩ = q ∧ r₁ = rest := h.of_pure
    obtain ⟨us, rfl, listed⟩ := Expr.takes_readList list
    exact ⟨⟨.sign .appends, s⟩ :: us, rfl, .present (.appends listed)⟩
  · obtain ⟨rfl, rfl⟩ : none = q ∧ ts = rest := h.of_pure
    exact ⟨[], rfl, .absent⟩

/-- A step that is read is derived from what is consumed. Where it has no clauses no remark follows,
or else it would have been read with the step. -/
theorem AttackStep.of_reads {step : AttackStep} (allowed : TrailingComma ts → trailing)
    (h : Reads (read eof ts) step rest) :
    ∃ us, ts = us ++ rest ∧ Derives trailing us step ∧
      (step.requires = none → step.reaches = none → Unremarked rest) := by
  rw [read] at h
  obtain ⟨kind, r₁, _, hkind, h⟩ := h.of_bind
  obtain ⟨name, r₂, _, hname, h⟩ := h.of_bind
  obtain ⟨tags, r₃, _, htags, h⟩ := h.of_bind
  obtain ⟨cia, r₄, _, hcia, h⟩ := h.of_bind
  obtain ⟨ttc, r₅, _, httc, h⟩ := h.of_bind
  obtain ⟨remarks, r₆, _, hremarks, h⟩ := h.of_bind
  obtain ⟨requires, r₇, _, hrequires, h⟩ := h.of_bind
  obtain ⟨reaches, r₈, _, hreaches, h⟩ := h.of_bind
  obtain ⟨rfl, rfl⟩ := h.of_pure
  obtain ⟨kinds, rfl, kindDerived⟩ := StepKind.takes_read hkind
  obtain rfl := of_reads_ident hname
  obtain ⟨marks, rfl, tagsDerived⟩ := tags_of_reads htags
  -- the classification and the time begin behind the name and the tags
  have behindTags : TrailingComma r₃ → trailing := fun comma =>
    allowed (((comma.append_left marks).append_left [_]).append_left kinds)
  obtain ⟨cias, rfl, ciaDerived⟩ := Classification.of_reads? behindTags hcia
  obtain ⟨ttcs, rfl, ttcDerived⟩ :=
    Ttc.of_reads? (fun comma => behindTags (comma.append_left cias)) httc
  obtain ⟨notes, rfl, remarksDerived, unremarked⟩ := remarks_of_reads hremarks
  obtain ⟨needs, rfl, requiresDerived⟩ := Requires.of_reads? hrequires
  obtain ⟨leads, rfl, reachesDerived⟩ := Reaches.of_reads? hreaches
  have behind : requires = none → reaches = none → Unremarked r₈ := by
    rintro rfl rfl
    cases requiresDerived
    cases reachesDerived
    exact unremarked
  exact ⟨_, by simp, .mk kindDerived tagsDerived ciaDerived ttcDerived remarksDerived
    requiresDerived reachesDerived, behind⟩

end MetaAttack
