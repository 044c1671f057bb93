import MetaAttack.Proofs.AlikeTerms
import MetaAttack.Spec.Declaration.Parser

/-!
# Specifications in other places

All readers of a specification respect where lexemes stand: for lists that are alike and ends that
look the same, either both give items that look the same or both fail with errors that do.
-/

namespace MetaAttack

variable {α : Type} {v : Views} {ts ts' : List Lexeme} {eof eof' : Span}

/-- Names that look the same stand in places that look the same. -/
theorem Ident.span_alike {n n' : Ident} (h : n.relocate v.left = n'.relocate v.right) :
    v.left n.span = v.right n'.span :=
  (Ident.mk.inj h).2

theorem Ident.name_alike {n n' : Ident} (h : n.relocate v.left = n'.relocate v.right) :
    n.name = n'.name :=
  (Ident.mk.inj h).1

/-! ### Parts of steps -/

theorem respected_remarks : v.Respected (fun g => List.map (Remark.relocate g)) Remark.readAll := by
  intro eof eof' ts ts' ends alike
  induction ts using Remark.readAll.induct generalizing ts' with
  | case1 key s word r ih =>
      obtain ⟨_, _, rfl, span, more⟩ := alike.ahead
      obtain ⟨_, _, rfl, _, more⟩ := more.ahead
      rw [Remark.readAll, Remark.readAll]
      refine (respected_sign .colon ends more).bind fun colon colon' _ rest => ?_
      refine (respected_stringLiteral ends rest).bind fun text text' htext rest => ?_
      refine (ih colon text rest).bind fun rs rs' hrs rest => .ok ?_ rest
      have value : text.value.1 = text'.value.1 := fst_alike htext
      change ⟨⟨key, v.left s⟩, text.value.1, v.left _⟩ :: rs.value.map (Remark.relocate v.left) =
        ⟨⟨key, v.right _⟩, text'.value.1, v.right _⟩ :: rs'.value.map (Remark.relocate v.right)
      rw [span, value, v.merge span (snd_alike htext), hrs]
  | case2 ts other =>
      rw [Remark.readAll, Remark.readAll]
      · exact .ok rfl alike
      · rintro key s word r rfl
        obtain ⟨_, _, rfl, more⟩ := alike.starts
        obtain ⟨_, _, rfl, _⟩ := more.starts
        exact other _ _ _ _ rfl
      · exact other

/-- Whether a step begins is decided by one token. -/
theorem begins_alike (alike : Alike v ts ts') :
    AttackStep.begins ts = AttackStep.begins ts' := by
  fun_cases AttackStep.begins ts with
  | case1 s r | case2 s r | case3 s r | case4 s r | case5 s r =>
      obtain ⟨_, _, rfl, _⟩ := alike.ahead
      rw [AttackStep.begins]
  | case6 ts noPipe noAmpersand noHash noBang noLetter =>
      rw [AttackStep.begins]
      · exact alike.ne_cons noPipe
      · exact alike.ne_cons noAmpersand
      · exact alike.ne_cons noHash
      · exact alike.ne_cons noBang
      · exact alike.ne_cons noLetter

theorem respected_kind : v.Respected (fun g => Prod.map id g) StepKind.read := by
  intro eof eof' ts ts' ends alike
  fun_cases StepKind.read eof ts with
  | case1 s r | case2 s r | case3 s r | case4 s r =>
      obtain ⟨_, _, rfl, span, more⟩ := alike.ahead
      rw [StepKind.read, StepKind.read]
      exact .ok (congrArg (Prod.mk _) span) more
  | case5 s r =>
      obtain ⟨_, _, rfl, span, more⟩ := alike.ahead
      rw [StepKind.read, StepKind.read]
      refine (respected_exactly (.ident "E") ends more).bind fun letter letter' hletter rest => ?_
      exact .ok (congrArg (Prod.mk _) (v.merge span hletter)) rest
  | case6 l r noPipe noAmpersand noHash noLetter noBang =>
      obtain ⟨t, s⟩ := l
      obtain ⟨_, _, rfl, span, _⟩ := alike.ahead
      rw [StepKind.read, StepKind.read]
      · exact .error (congrArg (ParseError.unexpectedToken .stepKind t) span)
      · exact Lexeme.ne_of_ne noPipe
      · exact Lexeme.ne_of_ne noAmpersand
      · exact Lexeme.ne_of_ne noHash
      · exact Lexeme.ne_of_ne noLetter
      · exact Lexeme.ne_of_ne noBang
      all_goals assumption
  | case7 =>
      cases alike with
      | nil =>
          rw [StepKind.read, StepKind.read]
          exact .error (congrArg (ParseError.unexpectedEnd .anyToken) ends)

/-- Tags are read one by one as long as there are any. -/
theorem respected_tags : v.Respected (fun g => List.map (Ident.relocate g)) readTags := by
  intro eof eof' ts ts' ends alike
  induction ts using readTags.induct generalizing ts' with
  | case1 s r ih =>
      obtain ⟨_, _, rfl, _, more⟩ := alike.ahead
      rw [readTags, readTags]
      refine (respected_ident ends more).bind fun tag tag' htag rest => ?_
      refine (ih tag rest).bind fun tags tags' htags rest => ?_
      exact .ok (congrArg₂ List.cons htag htags) rest
  | case2 ts other =>
      rw [readTags, readTags]
      · exact .ok rfl alike
      · exact alike.ne_cons other
      · exact other

theorem respected_letter : v.Respected (fun _ => id) Cia.read := by
  intro eof eof' ts ts' ends alike
  refine (respected_ident ends alike).bind fun name name' value rest => ?_
  rw [← Ident.name_alike value]
  cases Cia.ofText? name.value.name with
  | none =>
      exact .error (congrArg (ParseError.invalidClassification name.value.name)
        (Ident.span_alike value))
  | some c => exact .ok rfl rest

/-- The letters leave no place of their own, the braces around them do. -/
theorem respected_classification :
    v.Respected (fun g => Option.map (Classification.relocate g)) Classification.read? := by
  intro eof eof' ts ts' ends alike
  fun_cases Classification.read? eof ts with
  | case1 s r =>
      obtain ⟨_, _, rfl, span, more⟩ := alike.ahead
      rw [Classification.read?, Classification.read?]
      refine (respected_commaSeparated respected_letter ends more).bind fun cs cs' hcs rest => ?_
      refine (respected_sign .rbrace ends rest).bind fun close close' hclose rest => ?_
      have flags : cs.value = cs'.value := by rwa [List.map_id, List.map_id] at hcs
      exact .ok (congrArg some (congrArg₂ Classification.mk flags (v.merge span hclose))) rest
  | case2 ts other =>
      rw [Classification.read?, Classification.read?]
      · exact .ok rfl alike
      · exact alike.ne_cons other
      · exact other

/-- A time in brackets, or none where no bracket stands. -/
theorem respected_bracketed : v.Respected (fun g => Option.map (Ttc.relocate g)) Ttc.read? := by
  intro eof eof' ts ts' ends alike
  fun_cases Ttc.read? eof ts with
  | case1 s s' r =>
      obtain ⟨_, _, rfl, _, more⟩ := alike.ahead
      obtain ⟨_, _, rfl, _, more⟩ := more.ahead
      rw [Ttc.read?, Ttc.read?]
      exact .ok rfl more
  | case2 s r full =>
      obtain ⟨_, _, rfl, _, more⟩ := alike.ahead
      rw [Ttc.read?, Ttc.read?]
      · refine (Ttc.respected_read ends more).bind fun ttc ttc' httc rest => ?_
        refine (respected_sign .rbracket ends rest).bind fun _ _ _ rest => ?_
        exact .ok (congrArg some httc) rest
      · exact more.ne_cons full
      · exact full
  | case3 ts noEmpty other =>
      rw [Ttc.read?, Ttc.read?]
      · exact .ok rfl alike
      · rintro s s' r rfl
        exact alike.ne_cons other _ _ rfl
      · exact alike.ne_cons other
      · exact noEmpty
      · exact other

/-- From the sign up to the last expression. -/
theorem respected_requires :
    v.Respected (fun g => Option.map (Requires.relocate g)) Requires.read? := by
  intro eof eof' ts ts' ends alike
  fun_cases Requires.read? eof ts with
  | case1 s r =>
      obtain ⟨_, _, rfl, span, more⟩ := alike.ahead
      rw [Requires.read?, Requires.read?]
      refine (Expr.respected_readList ends more).bind fun es es' hes rest => ?_
      exact .ok (congrArg some (congrArg₂ Requires.mk hes span)) rest
  | case2 ts other =>
      rw [Requires.read?, Requires.read?]
      · exact .ok rfl alike
      · exact alike.ne_cons other
      · exact other

/-- The sign decides whether the inherited expressions stay. -/
theorem respected_reaches :
    v.Respected (fun g => Option.map (Reaches.relocate g)) Reaches.read? := by
  intro eof eof' ts ts' ends alike
  fun_cases Reaches.read? eof ts with
  | case1 s r | case2 s r =>
      obtain ⟨_, _, rfl, span, more⟩ := alike.ahead
      rw [Reaches.read?, Reaches.read?]
      refine (Expr.respected_readList ends more).bind fun es es' hes rest => ?_
      exact .ok (congrArg some (congrArg₂ (Reaches.mk _) hes span)) rest
  | case3 ts noReaches noAppends =>
      rw [Reaches.read?, Reaches.read?]
      · exact .ok rfl alike
      · exact alike.ne_cons noReaches
      · exact alike.ne_cons noAppends
      · exact noReaches
      · exact noAppends

/-- Steps are read alike. -/
theorem respected_step : v.Respected AttackStep.relocate AttackStep.read := by
  intro eof eof' ts ts' ends alike
  rw [AttackStep.read, AttackStep.read]
  refine (respected_kind ends alike).bind fun kind kind' hkind rest => ?_
  refine (respected_ident ends rest).bind fun name name' hname rest => ?_
  refine (respected_tags ends rest).bind fun tags tags' htags rest => ?_
  refine (respected_classification ends rest).bind fun cia cia' hcia rest => ?_
  refine (respected_bracketed ends rest).bind fun ttc ttc' httc rest => ?_
  refine (respected_remarks ends rest).bind fun remarks remarks' hremarks rest => ?_
  refine (respected_requires ends rest).bind fun requires requires' hrequires rest => ?_
  refine (respected_reaches ends rest).bind fun reaches reaches' hreaches rest => .ok ?_ rest
  have same : kind.value.1 = kind'.value.1 := fst_alike hkind
  have span := v.merge (snd_alike hkind) (Ident.span_alike hname)
  simp only [AttackStep.relocate, Parsed.map_value, same, hname, htags, hcia, httc, hremarks,
    hrequires, hreaches, span]

/-! ### Assets and categories -/

/-- The place of a variable begins with its keyword, which was read before. -/
theorem Variable.respected_read {start start' : Span} (hstart : v.left start = v.right start')
    (ends : v.left eof = v.right eof') (alike : Alike v ts ts') :
    Agree v relocate (read start eof ts) (read start' eof' ts') := by
  rw [read, read]
  refine (respected_ident ends alike).bind fun name name' hname rest => ?_
  refine (respected_sign .equals ends rest).bind fun _ _ _ rest => ?_
  refine (Expr.respected_read ends rest).bind fun e e' he rest => .ok ?_ rest
  have span := v.merge hstart (Ident.span_alike hname)
  simp only [relocate, Parsed.map_value, Parsed.before_value, hname, he, span]

/-- Members are told apart by their first token. -/
theorem Member.respected_readAll : v.Respected (fun g => List.map (relocate g)) readAll := by
  intro eof eof' ts ts' ends alike
  induction ts using readAll.induct generalizing ts' with
  | case1 ts closed =>
      have closed' := (isSome_sign?_alike .rbrace alike).symm.trans closed
      rw [readAll.eq_def, readAll.eq_def, if_pos closed, if_pos closed']
      exact .ok rfl alike
  | case2 ts unclosed begins ih =>
      have unclosed' := isSome_sign?_alike .rbrace alike ▸ unclosed
      have begins' := (begins_alike alike).symm.trans begins
      rw [readAll.eq_def, readAll.eq_def, if_neg unclosed, if_neg unclosed', if_pos begins,
        if_pos begins']
      refine (respected_step ends alike).bind fun s s' hs rest => ?_
      refine (ih s rest).bind fun ms ms' hms rest => ?_
      exact .ok (congrArg₂ List.cons (congrArg step hs) hms) rest
  | case3 start r unclosed noStep ih =>
      obtain ⟨_, _, rfl, span, more⟩ := alike.ahead
      have unclosed' := isSome_sign?_alike .rbrace alike ▸ unclosed
      have noStep' := begins_alike alike ▸ noStep
      rw [readAll.eq_def, readAll.eq_def, if_neg unclosed, if_neg unclosed', if_neg noStep,
        if_neg noStep']
      refine (Variable.respected_read span ends more).bind fun b b' hb rest => ?_
      refine (ih b rest).bind fun ms ms' hms rest => ?_
      exact .ok (congrArg₂ List.cons (congrArg binding hb) hms) rest
  | case4 l r noBinding unclosed noStep =>
      obtain ⟨t, s⟩ := l
      obtain ⟨_, _, rfl, span, _⟩ := alike.ahead
      have unclosed' := isSome_sign?_alike .rbrace alike ▸ unclosed
      have noStep' := begins_alike alike ▸ noStep
      rw [readAll, readAll, if_neg unclosed, if_neg unclosed', if_neg noStep, if_neg noStep']
      · exact .error (congrArg (ParseError.unexpectedToken .member t) span)
      · exact Lexeme.ne_of_ne noBinding
      · exact noBinding
  | case5 unclosed noStep =>
      cases alike with
      | nil =>
          rw [readAll.eq_def, readAll.eq_def, if_neg unclosed, if_neg unclosed, if_neg noStep,
            if_neg noStep]
          exact .error (congrArg (ParseError.unexpectedEnd (.token (.sign .rbrace))) ends)

theorem respected_parent : v.Respected (fun g => Option.map (Ident.relocate g)) readParent? := by
  intro eof eof' ts ts' ends alike
  fun_cases readParent? eof ts with
  | case1 s r =>
      obtain ⟨_, _, rfl, _, more⟩ := alike.ahead
      rw [readParent?, readParent?]
      refine (respected_ident ends more).bind fun name name' hname rest => ?_
      exact .ok (congrArg some hname) rest
  | case2 ts other =>
      rw [readParent?, readParent?]
      · exact .ok rfl alike
      · exact alike.ne_cons other
      · exact other

namespace Asset

/-- Steps are taken out of members before or after they are moved. -/
theorem relocate_steps (f : Span → Span) (ms : List Member) :
    (ms.filterMap Member.toStep?).map (AttackStep.relocate f) =
      (ms.map (Member.relocate f)).filterMap Member.toStep? := by
  rw [List.map_filterMap, List.filterMap_map]
  congr 1
  funext m
  cases m <;> rfl

/-- Variables are taken out of members before or after they are moved. -/
theorem relocate_bindings (f : Span → Span) (ms : List Member) :
    (ms.filterMap Member.toBinding?).map (Variable.relocate f) =
      (ms.map (Member.relocate f)).filterMap Member.toBinding? := by
  rw [List.map_filterMap, List.filterMap_map]
  congr 1
  funext m
  cases m <;> rfl

/-- An asset is read alike with `abstract` in front or not, which was looked at before. -/
theorem respected_readNamed (isAbstract : Bool) {start start' : Span}
    (hstart : v.left start = v.right start') (ends : v.left eof = v.right eof')
    (alike : Alike v ts ts') :
    Agree v relocate (readNamed isAbstract start eof ts)
      (readNamed isAbstract start' eof' ts') := by
  rw [readNamed, readNamed]
  refine (respected_ident ends alike).bind fun name name' hname rest => ?_
  refine (respected_parent ends rest).bind fun parent parent' hparent rest => ?_
  refine (respected_remarks ends rest).bind fun remarks remarks' hremarks rest => ?_
  refine (respected_sign .lbrace ends rest).bind fun _ _ _ rest => ?_
  refine (Member.respected_readAll ends rest).bind fun members members' hmembers rest => ?_
  refine (respected_sign .rbrace ends rest).bind fun _ _ _ rest => .ok ?_ rest
  have span := v.merge hstart (Ident.span_alike hname)
  simp only [relocate, Parsed.map_value, hname, hparent, hremarks, relocate_steps,
    relocate_bindings, hmembers, span]

theorem respected_readAll : v.Respected (fun g => List.map (relocate g)) readAll := by
  intro eof eof' ts ts' ends alike
  induction ts using readAll.induct generalizing ts' with
  | case1 start r ih =>
      obtain ⟨_, _, rfl, span, more⟩ := alike.ahead
      rw [readAll, readAll]
      refine (respected_exactly (.keyword .asset) ends more).bind fun word word' _ rest => ?_
      refine (respected_readNamed true span ends rest).bind fun a a' ha rest => ?_
      refine (ih word a rest).bind fun as as' has rest => ?_
      exact .ok (congrArg₂ List.cons ha has) rest
  | case2 start r ih =>
      obtain ⟨_, _, rfl, span, more⟩ := alike.ahead
      rw [readAll, readAll]
      refine (respected_readNamed false span ends more).bind fun a a' ha rest => ?_
      refine (ih a rest).bind fun as as' has rest => ?_
      exact .ok (congrArg₂ List.cons ha has) rest
  | case3 s r =>
      obtain ⟨_, _, rfl, span, _⟩ := alike.ahead
      rw [readAll, readAll]
      exact .ok rfl alike
  | case4 l r noAbstract noAsset noClose =>
      obtain ⟨t, s⟩ := l
      obtain ⟨_, _, rfl, span, _⟩ := alike.ahead
      rw [readAll, readAll]
      · exact .error (congrArg (ParseError.unexpectedToken .asset t) span)
      · exact Lexeme.ne_of_ne noAbstract
      · exact Lexeme.ne_of_ne noAsset
      · exact Lexeme.ne_of_ne noClose
      all_goals assumption
  | case5 =>
      cases alike with
      | nil =>
          rw [readAll, readAll]
          exact .error (congrArg (ParseError.unexpectedEnd (.token (.sign .rbrace))) ends)

end Asset

/-- Like an asset, from the place of its keyword on. -/
theorem Category.respected_read {start start' : Span} (hstart : v.left start = v.right start')
    (ends : v.left eof = v.right eof') (alike : Alike v ts ts') :
    Agree v relocate (read start eof ts) (read start' eof' ts') := by
  rw [read, read]
  refine (respected_ident ends alike).bind fun name name' hname rest => ?_
  refine (respected_remarks ends rest).bind fun remarks remarks' hremarks rest => ?_
  refine (respected_sign .lbrace ends rest).bind fun _ _ _ rest => ?_
  refine (Asset.respected_readAll ends rest).bind fun assets assets' hassets rest => ?_
  refine (respected_sign .rbrace ends rest).bind fun _ _ _ rest => .ok ?_ rest
  have span := v.merge hstart (Ident.span_alike hname)
  simp only [relocate, Parsed.map_value, hname, hremarks, hassets, span]

/-! ### Associations -/

theorem Bound.respected_read : v.Respected (fun _ => id) Bound.read := by
  intro eof eof' ts ts' ends alike
  refine (agree_accept ?_ ends alike).map fun _ _ same => fst_alike same
  exact fun t _ _ span => congrArg (ParseError.invalidMultiplicity t) span

/-- Bounds have no places, so both sides read the same. -/
theorem Multiplicity.respected_read : v.Respected (fun _ => id) Multiplicity.read := by
  intro eof eof' ts ts' ends alike
  rw [Multiplicity.read, Multiplicity.read]
  refine (Bound.respected_read ends alike).bind fun min min' hmin rest => ?_
  rcases sign?_alike .dotDot rest with ⟨h, h'⟩ | ⟨dots, dots', h, h', _, behind⟩
  · rw [h, h']
    exact .ok (congrArg (fun b => Multiplicity.mk b b) hmin) rest
  · rw [h, h']
    refine (Bound.respected_read ends behind).bind fun max max' hmax rest => ?_
    exact .ok (congrArg₂ Multiplicity.mk hmin hmax) rest

/-- The name of a field stands in brackets that are not kept. -/
theorem respected_fieldName : v.Respected Ident.relocate readFieldName := by
  intro eof eof' ts ts' ends alike
  refine (respected_sign .lbracket ends alike).bind fun _ _ _ rest => ?_
  refine (respected_ident ends rest).bind fun name name' hname rest => ?_
  exact (respected_sign .rbracket ends rest).bind fun _ _ _ rest => .ok hname rest

namespace Association

theorem respected_read : v.Respected relocate read := by
  intro eof eof' ts ts' ends alike
  rw [read, read]
  refine (respected_ident ends alike).bind fun left left' hleft rest => ?_
  refine (respected_fieldName ends rest).bind fun leftField leftField' hleftField rest => ?_
  refine (Multiplicity.respected_read ends rest).bind fun leftMult leftMult' hleftMult rest => ?_
  refine (respected_sign .leftArm ends rest).bind fun _ _ _ rest => ?_
  refine (respected_ident ends rest).bind fun name name' hname rest => ?_
  refine (respected_sign .rightArm ends rest).bind fun _ _ _ rest => ?_
  refine (Multiplicity.respected_read ends rest).bind fun rightMult rightMult' hrightMult rest => ?_
  refine (respected_fieldName ends rest).bind fun rightField rightField' hrightField rest => ?_
  refine (respected_ident ends rest).bind fun right right' hright rest => ?_
  refine (respected_remarks ends rest).bind fun remarks remarks' hremarks rest => .ok ?_ rest
  have span := v.merge (Ident.span_alike hleft) (Ident.span_alike hright)
  have leftSame : leftMult.value = leftMult'.value := hleftMult
  have rightSame : rightMult.value = rightMult'.value := hrightMult
  simp only [relocate, Parsed.map_value, hleft, hleftField, leftSame, hname, rightSame,
    hrightField, hright, hremarks, span]

theorem respected_readAll : v.Respected (fun g => List.map (relocate g)) readAll := by
  intro eof eof' ts ts' ends alike
  induction ts using readAll.induct generalizing ts' with
  | case1 s r =>
      obtain ⟨_, _, rfl, span, _⟩ := alike.ahead
      rw [readAll, readAll]
      exact .ok rfl alike
  | case2 =>
      cases alike with
      | nil =>
          rw [readAll, readAll]
          exact .error (congrArg (ParseError.unexpectedEnd (.token (.sign .rbrace))) ends)
  | case3 l r noClose ih =>
      obtain ⟨t, s⟩ := l
      obtain ⟨_, _, rfl, _, _⟩ := alike.ahead
      rw [readAll, readAll]
      · refine (respected_read ends alike).bind fun a a' ha rest => ?_
        refine (ih a rest).bind fun as as' has rest => ?_
        exact .ok (congrArg₂ List.cons ha has) rest
      · exact Lexeme.ne_of_ne noClose
      · exact noClose

end Association

/-! ### Items -/

namespace Item

theorem respected_read : v.Respected relocate read := by
  intro eof eof' ts ts' ends alike
  fun_cases read eof ts with
  | case1 start r =>
      obtain ⟨_, _, rfl, span, more⟩ := alike.ahead
      rw [read, read]
      refine (respected_ident ends more).bind fun key key' hkey rest => ?_
      refine (respected_sign .colon ends rest).bind fun _ _ _ rest => ?_
      refine (respected_stringLiteral ends rest).bind fun text text' htext rest => .ok ?_ rest
      have value : text.value.1 = text'.value.1 := fst_alike htext
      have whole := v.merge span (snd_alike htext)
      simp only [relocate, Declaration.relocate, Define.relocate, Parsed.map_value,
        Parsed.behind_value, Parsed.before_value, hkey, value, whole]
  | case2 start r =>
      obtain ⟨_, _, rfl, span, more⟩ := alike.ahead
      rw [read, read]
      refine (respected_stringLiteral ends more).bind fun path path' hpath rest => ?_
      have whole := v.merge span (snd_alike hpath)
      exact .ok (congrArg inclusion (congrArg₂ Include.mk (fst_alike hpath) whole)) rest
  | case3 start r =>
      obtain ⟨_, _, rfl, span, more⟩ := alike.ahead
      rw [read, read]
      refine (Category.respected_read span ends more).bind fun c c' hc rest => ?_
      exact .ok (congrArg (fun c => declaration (.category c)) hc) rest
  | case4 s r =>
      obtain ⟨_, _, rfl, _, more⟩ := alike.ahead
      rw [read, read]
      refine (respected_sign .lbrace ends more).bind fun _ _ _ rest => ?_
      refine (Association.respected_readAll ends rest).bind fun as as' has rest => ?_
      refine (respected_sign .rbrace ends rest).bind fun _ _ _ rest => ?_
      exact .ok (congrArg (fun as => declaration (.associations as)) has) rest
  | case5 l r noDefine noInclude noCategory noAssociations =>
      obtain ⟨t, s⟩ := l
      obtain ⟨_, _, rfl, span, _⟩ := alike.ahead
      rw [read, read]
      · exact .error (congrArg (ParseError.unexpectedToken .item t) span)
      · exact Lexeme.ne_of_ne noDefine
      · exact Lexeme.ne_of_ne noInclude
      · exact Lexeme.ne_of_ne noCategory
      · exact Lexeme.ne_of_ne noAssociations
      all_goals assumption
  | case6 =>
      cases alike with
      | nil =>
          rw [read, read]
          exact .error (congrArg (ParseError.unexpectedEnd .anyToken) ends)

/-- An item in front of the others is moved with them. -/
theorem relocateResult_cons (f : Span → Span) (i : Item) (x : Except ParseError (List Item)) :
    relocateResult f (fun g => List.map (relocate g)) (x >>= fun more => pure (i :: more)) =
      (relocateResult f (fun g => List.map (relocate g)) x).map (i.relocate f :: ·) := by
  cases x <;> rfl

/-- Reading to the end gives results that look the same. -/
theorem relocate_readAll (ends : v.left eof = v.right eof') (alike : Alike v ts ts') :
    relocateResult v.left (fun g => List.map (relocate g)) (readAll eof ts) =
      relocateResult v.right (fun g => List.map (relocate g)) (readAll eof' ts') := by
  induction ts using readAll.induct generalizing ts' with
  | case1 ts empty =>
      obtain rfl := List.isEmpty_iff.mp empty
      cases alike with
      | nil =>
          rw [readAll, readAll]
          rfl
  | case2 ts some ih =>
      have some' : ¬ ts'.isEmpty = true := by
        cases alike with
        | nil => exact some
        | cons => exact Bool.false_ne_true
      rw [readAll, readAll, if_neg some, if_neg some']
      refine (respected_read ends alike).relocateResult_bind fun p p' value rest => ?_
      rw [relocateResult_cons, relocateResult_cons, value, ih p rest]

end Item

end MetaAttack
