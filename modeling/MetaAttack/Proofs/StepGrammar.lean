import MetaAttack.Proofs.ExprGrammar
import MetaAttack.Proofs.TtcGrammar
import MetaAttack.Spec.Step.Parser

/-!
# The grammar of attack steps

A step is a kind and a name, and then tags, a classification, a time to compromise, remarks, a
requires clause and a reaches clause, each of which may be missing. The reader of steps reads each
part as far as it goes. What comes behind a step must therefore not look like a further part of it;
in particular, where a step ends with its remarks or before them, no name with the word `info`
behind it may come next.

## Implementation notes

Whether a comma may stand behind the last of the parameters of a distribution or of the letters of a
classification is left open by `trailing`.
-/

namespace MetaAttack

variable {ts us rest : List Lexeme} {eof : Span} {trailing : Prop}

/-! ### Remarks -/

/-- `key info: "text"`. -/
inductive Remark.Derives : Phrase Remark
  | mk {key value : String} {s word colon s' : Span} :
      Derives [⟨.ident key, s⟩, ⟨.ident "info", word⟩, ⟨.sign .colon, colon⟩, ⟨.string value, s'⟩]
        ⟨⟨key, s⟩, value, s.merge s'⟩

/-- The lexemes do not start with a name that has the word `info` behind it. -/
def Unremarked (ts : List Lexeme) : Prop :=
  ∀ key s word r, ts ≠ ⟨.ident key, s⟩ :: ⟨.ident "info", word⟩ :: r

/-- A remark begins with a name. -/
theorem unremarked_cons {l : Lexeme} (h : ∀ n, l.token ≠ .ident n) : Unremarked (l :: ts) := by
  rintro key s word r same
  rw [(List.cons.inj same).1] at h
  exact h key rfl

theorem opens_remarks {rs : List Remark} (h : Many Remark.Derives ts rs) : Opens [] ts := by
  cases h with
  | nil => simp
  | cons first _ =>
      cases first
      simp

/-- Remarks are read until no other one comes. -/
theorem reads_remarks {rs : List Remark} (h : Many Remark.Derives ts rs)
    (unremarked : Unremarked rest) : Reads (Remark.readAll eof (ts ++ rest)) rs rest := by
  induction h with
  | nil =>
      rw [List.nil_append, Remark.readAll]
      · exact .pure _
      · rintro key s word r rfl
        exact unremarked _ _ _ _ rfl
  | cons first _ ih =>
      cases first
      rw [List.append_assoc, List.cons_append, List.cons_append, List.cons_append,
        List.singleton_append, Remark.readAll]
      exact (reads_sign ..).bind fun _ => (reads_stringLiteral ..).bind fun _ => ih.bind fun _ =>
        .pure _

/-! ### Kinds, tags, classifications and times -/

/-- A kind of step, with its span. -/
inductive StepKind.Derives : Phrase (StepKind × Span)
  | anyOf {s : Span} : Derives [⟨.sign .pipe, s⟩] (anyOf, s)
  | allOf {s : Span} : Derives [⟨.sign .ampersand, s⟩] (allOf, s)
  | defense {s : Span} : Derives [⟨.sign .hash, s⟩] (defense, s)
  | existence {s : Span} : Derives [⟨.ident "E", s⟩] (existence, s)
  | absence {s s' : Span} :
      Derives [⟨.sign .bang, s⟩, ⟨.ident "E", s'⟩] (absence, s.merge s')

theorem StepKind.Derives.reads {p : StepKind × Span} (h : StepKind.Derives ts p) :
    Reads (StepKind.read eof (ts ++ rest)) p rest := by
  cases h with
  | absence =>
      rw [List.cons_append, List.singleton_append, StepKind.read]
      exact (reads_exactly ..).bind fun _ => .pure _
  | anyOf | allOf | defense | existence =>
      rw [List.singleton_append, StepKind.read]
      exact .pure _

/-- The sign of its kind is what a step is known by. -/
theorem StepKind.Derives.begins {p : StepKind × Span} (h : StepKind.Derives ts p) :
    AttackStep.begins (ts ++ rest) = true := by
  cases h <;> rfl

/-- `@name`. -/
inductive Tag : Phrase Ident
  | mk {n : String} {s mark : Span} : Tag [⟨.sign .atSign, mark⟩, ⟨.ident n, s⟩] ⟨n, s⟩

theorem reads_tags {tags : List Ident} (h : Many Tag ts tags) (avoids : Avoids [.atSign] rest) :
    Reads (readTags eof (ts ++ rest)) tags rest := by
  induction h with
  | nil =>
      rw [List.nil_append, readTags]
      · exact .pure _
      · rintro s r rfl
        exact avoids.ne (by simp) rfl
  | cons first _ ih =>
      cases first
      rw [List.append_assoc, List.cons_append, List.singleton_append, readTags]
      exact (reads_ident ..).bind fun _ => ih.bind fun _ => .pure _

/-- `C`, `I` or `A`. -/
inductive Cia.Derives : Phrase Cia
  | mk {c : Cia} {s : Span} : Derives [⟨.ident c.text, s⟩] c

theorem readsItem_cia {close : Sign} (h : close ≠ .comma) :
    ReadsItem Cia.read Cia.Derives close where
  apart := h
  starts := by
    rintro _ _ _ ⟨⟩
    simp
  reads := by
    rintro eof _ c t s rest ⟨⟩ _
    rw [List.singleton_append, Cia.read]
    refine (reads_ident ..).bind fun _ => ?_
    dsimp only
    cases c <;> exact .pure _

/-- Letters in braces. Whether a comma may stand behind the last one is left open. -/
inductive Classification.Derives (trailing : Prop) : Phrase Classification
  | mk {ts : List Lexeme} {flags : List Cia} {opening close : Span}
      (h : CommaSeparated trailing Cia.Derives ts flags) :
      Derives trailing (⟨.sign .lbrace, opening⟩ :: ts ++ [⟨.sign .rbrace, close⟩])
        ⟨flags, opening.merge close⟩

/-- An optional part begins with its own sign, if with any. -/
theorem opens_classification {c : Option Classification}
    (h : Optional (Classification.Derives trailing) ts c) : Opens [.lbrace] ts := by
  rcases h with _ | ⟨⟨_⟩⟩ <;> simp

/-- Letters are read where they stand, and nothing is read where no brace opens. -/
theorem Classification.reads? {c : Option Classification}
    (h : Optional (Classification.Derives trailing) ts c) (avoids : Avoids [.lbrace] rest) :
    Reads (read? eof (ts ++ rest)) c rest := by
  cases h with
  | absent =>
      rw [List.nil_append, read?]
      · exact .pure _
      · rintro s r rfl
        exact avoids.ne (by simp) rfl
  | present h =>
      obtain ⟨flags⟩ := h
      rw [List.append_assoc, List.cons_append, List.singleton_append, read?]
      exact (flags.reads (readsItem_cia (by decide))).bind fun _ => (reads_sign ..).bind fun _ =>
        .pure _

/-- A time between brackets; nothing may stand between them, and the brackets may be missing. -/
inductive Ttc.Bracketed (trailing : Prop) : Phrase (Option Ttc)
  | absent : Bracketed trailing [] none
  | empty {opening close : Span} :
      Bracketed trailing [⟨.sign .lbracket, opening⟩, ⟨.sign .rbracket, close⟩] none
  | full {ts : List Lexeme} {t : Ttc} {opening close : Span} (h : Derives trailing .sum ts t) :
      Bracketed trailing (⟨.sign .lbracket, opening⟩ :: ts ++ [⟨.sign .rbracket, close⟩]) (some t)

theorem Ttc.Bracketed.opens {t : Option Ttc} (h : Ttc.Bracketed trailing ts t) :
    Opens [.lbracket] ts := by
  cases h <;> simp

theorem Ttc.reads? {t : Option Ttc} (h : Ttc.Bracketed trailing ts t)
    (avoids : Avoids [.lbracket] rest) : Reads (read? eof (ts ++ rest)) t rest := by
  cases h with
  | absent =>
      rw [List.nil_append, read?]
      · exact .pure _
      · rintro s s' r rfl
        exact avoids.ne (by simp) rfl
      · rintro s r rfl
        exact avoids.ne (by simp) rfl
  | empty =>
      rw [List.cons_append, List.singleton_append, read?]
      exact .pure _
  | @full ts t _ close h =>
      have ends : Ends ts (⟨.sign .rbracket, close⟩ :: rest) :=
        ⟨detached_of_avoids (by simp), by simp⟩
      have inside : ∀ s r, ts ++ ⟨.sign .rbracket, close⟩ :: rest ≠ ⟨.sign .rbracket, s⟩ :: r := by
        intro s r same
        have opens : Opens [.lparen] (ts ++ ⟨.sign .rbracket, close⟩ :: rest) := h.opens
        rw [same, opens_cons] at opens
        simpa using opens _ rfl
      rw [List.append_assoc, List.cons_append, List.singleton_append, read?]
      · exact (h.reads ends).bind fun _ => (reads_sign ..).bind fun _ => .pure _
      · exact inside

/-! ### Clauses -/

/-- `<- expr, ...`. -/
inductive Requires.Derives : Phrase Requires
  | mk {ts : List Lexeme} {es : List Expr} {s : Span} (h : Listed (Expr.Derives .sum) ts es) :
      Derives (⟨.sign .requires, s⟩ :: ts) ⟨es, s⟩

/-- `-> expr, ...`, or `+> expr, ...` to keep what is inherited. -/
inductive Reaches.Derives : Phrase Reaches
  | reaches {ts : List Lexeme} {es : List Expr} {s : Span} (h : Listed (Expr.Derives .sum) ts es) :
      Derives (⟨.sign .reaches, s⟩ :: ts) ⟨false, es, s⟩
  | appends {ts : List Lexeme} {es : List Expr} {s : Span} (h : Listed (Expr.Derives .sum) ts es) :
      Derives (⟨.sign .appends, s⟩ :: ts) ⟨true, es, s⟩

theorem opens_requires {q : Option Requires} (h : Optional Requires.Derives ts q) :
    Opens [.requires] ts := by
  rcases h with _ | ⟨⟨_⟩⟩ <;> simp

theorem opens_reaches {q : Option Reaches} (h : Optional Reaches.Derives ts q) :
    Opens [.reaches, .appends] ts := by
  rcases h with _ | ⟨⟨_⟩⟩ <;> simp

/-- Where there is a clause, a sign comes first. -/
theorem unremarked_clauses {requires : Option Requires} {reaches : Option Reaches}
    (hrequires : Optional Requires.Derives ts requires)
    (hreaches : Optional Reaches.Derives us reaches)
    (unremarked : requires = none → reaches = none → Unremarked rest) :
    Unremarked (ts ++ (us ++ rest)) := by
  cases hrequires with
  | present h =>
      cases h
      exact unremarked_cons (by simp)
  | absent =>
      cases hreaches with
      | present h => cases h <;> exact unremarked_cons (by simp)
      | absent => exact unremarked rfl rfl

/-- The signs that continue a list of expressions. -/
def Expr.signs : List Sign :=
  [.lparen, .star, .lbracket, .dot, .union, .intersection, .minus, .comma]

theorem Expr.reads_list_of_avoids {es : List Expr} (h : Listed (Expr.Derives .sum) ts es)
    (avoids : Avoids Expr.signs rest) : Reads (Expr.readList eof (ts ++ rest)) es rest :=
  Expr.reads_list h ⟨Expr.uncalled_of_avoids avoids (by simp [signs]),
    avoids.mono (by simp [signs])⟩ (avoids.mono (by simp [signs]))

/-- Expressions end where no sign of theirs comes, so the next part is left alone. -/
theorem Requires.reads? {q : Option Requires} (h : Optional Requires.Derives ts q)
    (avoids : Avoids (.requires :: Expr.signs) rest) :
    Reads (read? eof (ts ++ rest)) q rest := by
  cases h with
  | absent =>
      rw [List.nil_append, read?]
      · exact .pure _
      · rintro s r rfl
        exact avoids.ne (by simp) rfl
  | present h =>
      obtain ⟨es⟩ := h
      rw [List.cons_append, read?]
      exact (Expr.reads_list_of_avoids es (avoids.mono (by simp))).bind fun _ => .pure _

theorem Reaches.reads? {q : Option Reaches} (h : Optional Reaches.Derives ts q)
    (avoids : Avoids (.reaches :: .appends :: Expr.signs) rest) :
    Reads (read? eof (ts ++ rest)) q rest := by
  cases h with
  | absent =>
      rw [List.nil_append, read?]
      · exact .pure _
      · rintro s r rfl
        exact avoids.ne (by simp) rfl
      · rintro s r rfl
        exact avoids.ne (by simp) rfl
  | present h =>
      cases h with
      | reaches es | appends es =>
          rw [List.cons_append, read?]
          exact (Expr.reads_list_of_avoids es (avoids.mono (by simp))).bind fun _ => .pure _

/-! ### Steps -/

namespace AttackStep

/-- A step with all its parts, most of which may be missing, in this order. -/
inductive Derives (trailing : Prop) : Phrase AttackStep
  | mk {kinds tags cias ttcs marks needs leads : List Lexeme} {kind : StepKind} {name : String}
      {start s : Span} {names : List Ident} {cia : Option Classification} {ttc : Option Ttc}
      {remarks : List Remark} {requires : Option Requires} {reaches : Option Reaches}
      (hkind : StepKind.Derives kinds (kind, start)) (htags : Many Tag tags names)
      (hcia : Optional (Classification.Derives trailing) cias cia)
      (httc : Ttc.Bracketed trailing ttcs ttc) (hremarks : Many Remark.Derives marks remarks)
      (hrequires : Optional Requires.Derives needs requires)
      (hreaches : Optional Reaches.Derives leads reaches) :
      Derives trailing
        (kinds ++ ⟨.ident name, s⟩ :: (tags ++ (cias ++ (ttcs ++ (marks ++ (needs ++ leads))))))
        { kind, name := ⟨name, s⟩, tags := names, cia, ttc, remarks, requires, reaches
          span := start.merge s }

/-- The signs that continue a step. -/
def signs : List Sign :=
  .atSign :: .lbrace :: .requires :: .reaches :: .appends :: Expr.signs

/-- A step is read where neither a sign that continues it comes next nor, if it has no clauses, a
remark. -/
theorem Derives.reads {step : AttackStep} (h : Derives trailing ts step)
    (avoids : Avoids signs rest)
    (unremarked : step.requires = none → step.reaches = none → Unremarked rest) :
    Reads (read eof (ts ++ rest)) step rest := by
  cases h with
  | @mk kinds tags cias ttcs marks needs leads _ _ _ _ _ _ _ _ _ _ hkind htags hcia httc hremarks
      hrequires hreaches =>
      have behindNeeds : Avoids (.atSign :: .lbrace :: .requires :: Expr.signs) (leads ++ rest) :=
        (avoids.mono (by decide)).append (opens_reaches hreaches) (by decide)
      have behindMarks : Avoids [.atSign, .lbrace, .lbracket] (needs ++ (leads ++ rest)) :=
        (behindNeeds.mono (by decide)).append (opens_requires hrequires) (by decide)
      have behindTtcs := behindMarks.append (opens_remarks hremarks) (by simp)
      have behindCias : Avoids [.atSign, .lbrace] (ttcs ++ (marks ++ (needs ++ (leads ++ rest)))) :=
        (behindTtcs.mono (by decide)).append httc.opens (by decide)
      have behindTags :
          Avoids [.atSign] (cias ++ (ttcs ++ (marks ++ (needs ++ (leads ++ rest))))) :=
        (behindCias.mono (by decide)).append (opens_classification hcia) (by decide)
      rw [List.append_assoc, List.cons_append, List.append_assoc, List.append_assoc,
        List.append_assoc, List.append_assoc, List.append_assoc, read]
      refine hkind.reads.bind fun _ => (reads_ident ..).bind fun _ => ?_
      refine (reads_tags htags behindTags).bind fun _ => ?_
      refine (Classification.reads? hcia (behindCias.mono (by decide))).bind fun _ => ?_
      refine (Ttc.reads? httc (behindTtcs.mono (by decide))).bind fun _ => ?_
      have last := unremarked_clauses hrequires hreaches unremarked
      refine (reads_remarks hremarks last).bind fun _ => ?_
      refine (Requires.reads? hrequires (behindNeeds.mono (by decide))).bind fun _ => ?_
      exact (Reaches.reads? hreaches (avoids.mono (by decide))).bind fun _ => .pure _

end AttackStep

end MetaAttack
