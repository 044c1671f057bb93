import MetaAttack.Proofs.Events
import MetaAttack.Proofs.Origins
import MetaAttack.Proofs.Resolved
import MetaAttack.Proofs.Standalone

/-!
# Every position is right

The causes for which an expression does not resolve point into the expression that was asked about
or into the body of a variable that it uses. With what the other checks point at, every place that
is reported of a source goes from token to token and has the line on which it starts.
-/

namespace MetaAttack

variable {P : Span → Prop}

/-- All causes point at spans with the property. -/
def Resolution.PointsTo (P : Span → Prop) {α : Type} (x : Resolution α) : Prop :=
  ∀ c ∈ x.causes, P c.span

namespace Resolution

variable {α β : Type} {x : Resolution α} {c : ResolveError}

theorem pointsTo_ok (t : α) : PointsTo P (.ok t : Resolution α) := fun _ hc => nomatch hc

theorem pointsTo_error (h : P c.span) : PointsTo P (.error [c] : Resolution α) :=
  List.forall_mem_singleton.mpr h

end Resolution

open Resolution (pointsTo_ok pointsTo_error)

namespace Registry

variable {R : Registry} {r : VariableRef} {C : String} {e : Expr} {span : Span}

/-! ### Judgements -/

theorem pointsTo_typeOfField (R : Registry) (C : String) {name : Ident} (h : P name.span) :
    (R.typeOfField C name).PointsTo P := by
  rw [typeOfField]
  split
  · exact pointsTo_ok _
  · exact pointsTo_error h

theorem pointsTo_typeOfClosure (R : Registry) (C : String) (h : P span) (t : String) :
    (R.typeOfClosure C span t).PointsTo P := by
  rw [typeOfClosure]
  split
  · exact pointsTo_ok _
  · exact pointsTo_error h

theorem pointsTo_typeOfRestriction (R : Registry) {subtype : Ident} (h : P subtype.span)
    (t : String) : (R.typeOfRestriction subtype t).PointsTo P := by
  rw [typeOfRestriction]
  split
  · exact pointsTo_error h
  · split
    · exact pointsTo_ok _
    · exact pointsTo_error h

theorem pointsTo_typeOfSet (R : Registry) (h : P span) (left right : String) :
    (R.typeOfSet span left right).PointsTo P := by
  rw [typeOfSet]
  split
  · exact pointsTo_ok _
  · exact pointsTo_error h

theorem pointsTo_stepOfField (R : Registry) (C : String) {name : Ident} (h : P name.span) :
    (R.stepOfField C name).PointsTo P := by
  rw [stepOfField]
  split
  · exact pointsTo_ok _
  · exact pointsTo_error h

theorem pointsTo_remembered (s : ResolverState) (r : VariableRef) (h : P span) (v : Verdict) :
    (s.remembered r span v).PointsTo P := by
  cases v with
  | typed t => exact pointsTo_ok t
  | failed => exact fun _ hc => nomatch hc
  | undecided => exact pointsTo_error h

/-! ### The resolver -/

/-- A task asks at spans with the property. -/
def AsksAt (P : Span → Prop) : Task → Prop
  | .binding _ _ span => P span
  | .type _ _ e | .step _ _ e => ∀ s ∈ e.spans, P s

/-- The causes that a run gives point at spans with the property. -/
def RunPoints (P : Span → Prop) (q : Task) (x : Run q.Target) : Prop := x.result.PointsTo P

/-- The work points at spans with the property, if the tasks that it waits for do. -/
def EnsuresPoints (P : Span → Prop) (R : Registry) {α : Type} (w : Work α) : Prop :=
  R.Ensures (AsksAt P) (RunPoints P) w fun y => y.result.PointsTo P

theorem Within.spans_of_declared (h : R.Within P) {v : VariableEntry}
    (hv : R.declaredVariable? r = some v) : ∀ s ∈ v.expr.spans, P s := by
  obtain ⟨a, ha, hv⟩ := Option.bind_eq_some_iff.mp hv
  exact ((h.assets a (Table.mem_of_find? ha)).bindings v (Table.mem_of_find? hv)).2

section Ensures

variable {α : Type} {s : ResolverState}

theorem ensuresPoints_judge {x : Resolution α} (h : x.PointsTo P) :
    EnsuresPoints P R (.judge x s) :=
  ensures_judge.mpr h

theorem ensuresPoints_last {q : Task} (asks : AsksAt P q) : EnsuresPoints P R (.await q .done) :=
  ensures_last asks fun _ _ points => points

theorem ensuresPoints_andThen {next : String → ResolverState → Work α}
    (asks : ∀ x ∈ e.spans, P x) (h : ∀ t s', EnsuresPoints P R (next t s')) :
    EnsuresPoints P R (.await (.type s C e) fun a => a.andThen next) := by
  apply ensures_await_andThen asks
  · exact fun x t _ _ _ => h t x.state
  · intro x causes _ points hc
    rwa [RunPoints, hc] at points

theorem Within.ensuresPoints_binding (h : R.Within P) (asks : P span) :
    EnsuresPoints P R (R.work (.binding s r span)) := by
  rw [EnsuresPoints, work]
  simp only [Ensures]
  split
  · exact ensuresPoints_judge (pointsTo_remembered s r asks _)
  · split
    · exact ensuresPoints_judge (pointsTo_error asks)
    · next v hv => exact ⟨h.spans_of_declared hv, fun _ _ points => points⟩

theorem ensuresPoints_type (asks : ∀ x ∈ e.spans, P x) :
    EnsuresPoints P R (R.work (.type s C e)) := by
  cases e with
  | field name span =>
      have place := asks name.span (List.mem_cons_of_mem _ name.span_mem_spans)
      exact ensuresPoints_judge (R.pointsTo_typeOfField C place)
  | call name span =>
      have place := asks name.span (List.mem_cons_of_mem _ name.span_mem_spans)
      rw [work]
      split
      · exact ensuresPoints_last place
      · exact ensuresPoints_judge (pointsTo_error place)
  | collect l r span =>
      simp only [Expr.spans, List.forall_mem_cons, List.forall_mem_append] at asks
      exact ensuresPoints_andThen asks.2.1 fun t s' => ensuresPoints_last asks.2.2
  | combine op l r span =>
      simp only [Expr.spans, List.forall_mem_cons, List.forall_mem_append] at asks
      refine ⟨asks.2.1, fun x _ left => ⟨asks.2.2, fun y _ right => ?_⟩⟩
      refine ensures_both.mpr ⟨fun t u _ _ => ?_, fun _ => ?_⟩
      · exact ensures_judge.mpr (R.pointsTo_typeOfSet asks.1 t u)
      · exact List.forall_mem_append.mpr ⟨left, right⟩
  | closure inner span =>
      simp only [Expr.spans, List.forall_mem_cons] at asks
      exact ensuresPoints_andThen asks.2 fun t s' =>
        ensuresPoints_judge (R.pointsTo_typeOfClosure C asks.1 t)
  | restrict inner A span =>
      simp only [Expr.spans, List.forall_mem_cons, List.forall_mem_append] at asks
      exact ensuresPoints_andThen asks.2.1 fun t s' =>
        ensuresPoints_judge (R.pointsTo_typeOfRestriction (asks.2.2 A.span A.span_mem_spans) t)

theorem ensuresPoints_step (asks : ∀ x ∈ e.spans, P x) :
    EnsuresPoints P R (R.work (.step s C e)) := by
  cases e with
  | field name span =>
      have place := asks name.span (List.mem_cons_of_mem _ name.span_mem_spans)
      exact ensuresPoints_judge (R.pointsTo_stepOfField C place)
  | collect l r span =>
      simp only [Expr.spans, List.forall_mem_cons, List.forall_mem_append] at asks
      exact ensuresPoints_andThen asks.2.1 fun t s' => ensuresPoints_last asks.2.2
  | call _ _ | combine _ _ _ _ | closure _ _ | restrict _ _ _ =>
      exact ensuresPoints_judge (pointsTo_error (asks _ List.mem_cons_self))

end Ensures

/-- Whatever the resolver is asked, it points at spans of the question and of the registry. -/
theorem Within.pointsTo_resolve (h : R.Within P) (q : Task) (asks : AsksAt P q) :
    (R.resolve q).result.PointsTo P := by
  refine R.resolve_induction (AsksAt P) (RunPoints P) (fun q asks => ?_) q asks
  cases q with
  | binding s r span => exact h.ensuresPoints_binding asks
  | type s C e => exact ensuresPoints_type asks
  | step s C e => exact ensuresPoints_step asks

/-! ### Clauses and variables -/

/-- Each expression that does not resolve is reported at the clause, with its causes. -/
theorem pointsTo_resolveEach {α : Type} {resolve : Memo → Expr → Resolution α × Memo}
    {es : List Expr} (clause : Clause) (hspan : P span) (m : Memo)
    (points : ∀ e ∈ es, ∀ m, (resolve m e).1.PointsTo P) :
    Only (·.PointsTo P) (resolveEach resolve (.unresolved · clause span) m es).2.2 := by
  induction es generalizing m with
  | nil => exact only_nil
  | cons e es ih =>
      obtain ⟨here, points⟩ := List.forall_mem_cons.mp points
      have more := ih (resolve m e).2 points
      rw [resolveEach]
      dsimp only
      cases hr : (resolve m e).1 with
      | ok t => exact more
      | error causes =>
          have found := here m
          rw [hr] at found
          have spans : SemanticError.PointsTo P (.unresolved causes clause span) :=
            .inr (List.forall_mem_cons.mpr ⟨hspan, List.forall_mem_map.mpr found⟩)
          exact List.forall_mem_cons.mpr ⟨spans, more⟩

theorem Within.pointsTo_resolveStep (h : R.Within P) (asset : String) {p : Progress}
    {s : StepEntry} (hp : Only (·.PointsTo P) p.errors) (hs : s.Within P) :
    Only (·.PointsTo P) (R.resolveStep asset p s).errors := by
  have required : ∀ m, Only (·.PointsTo P) (R.askRequires asset m s).2.2 := by
    intro m
    rw [askRequires]
    split
    · exact only_nil
    · next c hc =>
      obtain ⟨arrow, exprs⟩ := List.forall_mem_cons.mp (hs.requires c hc)
      refine pointsTo_resolveEach _ arrow m fun e he m =>
        h.pointsTo_resolve (.type (.idle m) asset e) fun x hx => ?_
      exact exprs x (List.mem_flatMap_of_mem he hx)
  have reached : ∀ m, Only (·.PointsTo P) (R.askReaches asset m s).2.2 := by
    intro m
    rw [askReaches]
    split
    · exact only_nil
    · next c hc =>
      obtain ⟨arrow, exprs⟩ := List.forall_mem_cons.mp (hs.reaches c hc)
      refine pointsTo_resolveEach _ arrow m fun e he m =>
        h.pointsTo_resolve (.step (.idle m) asset e) fun x hx => ?_
      exact exprs x (List.mem_flatMap_of_mem he hx)
  rw [resolveStep_eq]
  exact (hp.append (required _)).append (reached _)

theorem Within.pointsTo_resolveVariable (h : R.Within P) (asset : String) {p : Progress}
    {v : VariableEntry} (hp : Only (·.PointsTo P) p.errors) (hv : P v.span) :
    Only (·.PointsTo P) (R.resolveVariable asset p v).errors := by
  have found : (R.typeOfVariable [] p.memo ⟨asset, v.name⟩ v.span).result.PointsTo P :=
    h.pointsTo_resolve (.binding (.idle p.memo) ⟨asset, v.name⟩ v.span) hv
  refine Only.append hp ?_
  split
  · exact only_nil
  · next causes hr =>
    rw [hr] at found
    refine only_map fun c hc => .inr ?_
    have span : P c.span := found c hc
    exact List.forall_mem_cons.mpr ⟨span, List.forall_mem_singleton.mpr span⟩

theorem Within.pointsTo_resolveAll (h : R.Within P) : Only (·.PointsTo P) R.resolveAll.errors := by
  have bindings : Only (·.PointsTo P) R.variablesProgress.errors := by
    refine List.foldlRecOn (motive := fun p => Only (·.PointsTo P) (Progress.errors p)) _ _
      only_nil fun p hp x hx => ?_
    obtain ⟨a, ha, hx⟩ := List.mem_flatMap.mp hx
    obtain ⟨v, hv, rfl⟩ := List.mem_map.mp hx
    have within := h.assets a (mem_of_mem_rooted ha)
    exact h.pointsTo_resolveVariable a.name hp (within.bindings v hv).1
  rw [resolveAll_eq]
  refine List.foldlRecOn (motive := fun p => Only (·.PointsTo P) (Progress.errors p)) _ _
    bindings fun p hp x hx => ?_
  obtain ⟨a, ha, hx⟩ := List.mem_flatMap.mp hx
  obtain ⟨s, hs, rfl⟩ := List.mem_map.mp hx
  exact h.pointsTo_resolveStep a.name hp ((h.assets a (mem_of_mem_rooted ha)).steps s hs)

end Registry

/-! ### Sources -/

namespace Analysis

variable {s : Declared}

/-- Whatever is reported points at spans of the registry, or at what was reported before. -/
theorem pointsTo_ofDeclared (h : s.registry.Within P) (before : Only (·.PointsTo P) s.errors) :
    Only (·.PointsTo P) (ofDeclared s).errors := by
  have within := h.withFields
  rw [errors_ofDeclared]
  refine Only.append ?_ within.pointsTo_resolveAll
  refine Only.append ?_ within.pointsTo_inheritedVariableErrors
  refine Only.append ?_ within.pointsTo_stepErrors
  refine Only.append ?_ within.pointsTo_remarkErrors
  refine Only.append ?_ within.pointsTo_inheritedFieldErrors
  refine Only.append ?_ (s.registry.pointsTo_placeAssociations h.associations)
  refine Only.append ?_ within.pointsTo_extensionErrors
  exact before.append within.pointsTo_requiredDefineErrors

end Analysis

namespace Spec

variable {source : String} {spec : Spec} {a : Analysis}

/-- The entities of a specification have their spans from it. -/
theorem forall_spans_entities (h : ∀ x ∈ spec.spans, P x) :
    ∀ e ∈ spec.declarations.flatMap Declaration.entities, ∀ x ∈ e.spans, P x := by
  intro e he
  obtain ⟨d, hd, he⟩ := List.mem_flatMap.mp he
  obtain ⟨i, hi, hd⟩ := List.mem_flatMap.mp hd
  have item : ∀ x ∈ i.spans, P x := fun x hx => h x (List.mem_flatMap_of_mem hi hx)
  cases i with
  | inclusion => cases hd
  | declaration d' =>
      obtain rfl := List.mem_singleton.mp hd
      exact d.forall_spans_entities item e he

/-- What holds of all spans of a specification holds of all places that its analysis reports. -/
theorem points_of_analyze (h : ∀ x ∈ spec.spans, P x) (ok : spec.analyze = .ok a) :
    Only (·.PointsTo P) a.errors ∧ ∀ w ∈ a.warnings, P w.span := by
  have entities := spec.forall_spans_entities h
  have within := Declared.within_of entities
  rw [(analyze_of_ok ok).2]
  exact ⟨Analysis.pointsTo_ofDeclared within (Declared.pointsTo_of entities),
    within.withFields.warnings⟩

end Spec

/-- Every span that is read from a source goes from token to token, with the line on which it
starts, and so does every span that is reported of it; only a define that is missing has none. -/
theorem Spec.positions {source : String} {spec : Spec} (h : ofSource source = .ok spec) :
    (∀ s ∈ spec.spans, Framed source s) ∧
    ∀ a, spec.analyze = .ok a →
      (∀ e ∈ a.errors, (∃ key, e = .missingDefine key ∧ e.spans = [⟨0, 0, 0⟩]) ∨
        ∀ s ∈ e.spans, Framed source s) ∧
      ∀ w ∈ a.warnings, Framed source w.span := by
  have framed := framed_of_ofSource h
  refine ⟨framed, fun a ok => ?_⟩
  obtain ⟨errors, warnings⟩ := points_of_analyze framed ok
  refine ⟨fun e he => ?_, warnings⟩
  rcases errors e he with ⟨key, rfl⟩ | points
  · exact .inl ⟨key, rfl, rfl⟩
  · exact .inr points

/-- The step leads to one that is not there. -/
def lostStep : String := "category C \x7b\n  asset A \x7b | s -> b \x7d \x7d"

def lostStepMember : List Lexeme :=
  [⟨.sign .pipe, ⟨25, 26, 2⟩⟩, ⟨.ident "s", ⟨27, 28, 2⟩⟩, ⟨.sign .reaches, ⟨29, 31, 2⟩⟩,
    ⟨.ident "b", ⟨32, 33, 2⟩⟩]

def lostStepLexemes : List Lexeme :=
  [⟨.keyword .category, ⟨0, 8, 1⟩⟩, ⟨.ident "C", ⟨9, 10, 1⟩⟩, ⟨.sign .lbrace, ⟨11, 12, 1⟩⟩,
    ⟨.keyword .asset, ⟨15, 20, 2⟩⟩, ⟨.ident "A", ⟨21, 22, 2⟩⟩, ⟨.sign .lbrace, ⟨23, 24, 2⟩⟩] ++
    lostStepMember ++ [⟨.sign .rbrace, ⟨34, 35, 2⟩⟩, ⟨.sign .rbrace, ⟨36, 37, 2⟩⟩]

/-- What the source is read as. -/
def lostStepSpec : Spec where
  items := [.declaration (.category ⟨⟨"C", ⟨9, 10, 1⟩⟩, [], [⟨false, ⟨"A", ⟨21, 22, 2⟩⟩, none, [],
    [⟨.anyOf, ⟨"s", ⟨27, 28, 2⟩⟩, [], none, none, [], none,
      some ⟨false, [.field ⟨"b", ⟨32, 33, 2⟩⟩ ⟨32, 33, 2⟩], ⟨29, 31, 2⟩⟩, ⟨25, 28, 2⟩⟩], [],
    ⟨15, 22, 2⟩⟩], ⟨0, 10, 1⟩⟩)]

theorem Spec.derives_lostStep : Spec.Derives .separate lostStepLexemes lostStepSpec := by
  have step : AttackStep.Derives False lostStepMember _ :=
    .mk .anyOf .nil .absent .absent .nil .absent
      (.present (.reaches (.last (.chain (.operand (.primary .field))))))
  have members : Many (Member.Derives False) (lostStepMember ++ []) _ :=
    .cons (Member.Derives.step step) .nil
  have asset := Asset.Derives.concrete (@Asset.Named.mk .separate false ⟨15, 20, 2⟩ [] []
    lostStepMember "A" ⟨21, 22, 2⟩ ⟨23, 24, 2⟩ ⟨34, 35, 2⟩ none [] _ .absent .nil members
    (List.isChain_singleton _))
  have category := @Category.Derives.mk .separate [] _ "C" ⟨0, 8, 1⟩ ⟨9, 10, 1⟩ ⟨11, 12, 1⟩
    ⟨36, 37, 2⟩ [] _ .nil (.cons asset .nil)
  have all : Spec.Derives .separate (lostStepLexemes ++ []) lostStepSpec :=
    .cons (Item.Derives.category category) .nil
  rwa [List.append_nil] at all

theorem Spec.ofSource_lostStep : ofSource lostStep = .ok lostStepSpec := by
  have lexed : lexemes lostStep = .ok lostStepLexemes := by decide +kernel
  exact ofSource_of_derives lexed derives_lostStep

theorem Spec.spans_errors_lostStep :
    (Analysis.ofDeclared (.of (lostStepSpec.declarations.flatMap Declaration.entities))).errors.map
      SemanticError.spans = [[⟨0, 0, 0⟩], [⟨0, 0, 0⟩], [⟨29, 31, 2⟩, ⟨32, 33, 2⟩]] := by
  rw [Analysis.errors_ofDeclared, List.map_append]
  change _ = ([[⟨0, 0, 0⟩], [⟨0, 0, 0⟩]] : List (List Span)) ++ [[⟨29, 31, 2⟩, ⟨32, 33, 2⟩]]
  refine congrArg₂ _ ?checked ?resolved
  case checked => decide +kernel
  case resolved => cbv

/-- What is not found is reported where it stands, on the second line. -/
theorem Spec.positions_lostStep :
    ∃ spec a, ofSource lostStep = .ok spec ∧ spec.analyze = .ok a ∧
      a.errors.map SemanticError.spans =
        [[⟨0, 0, 0⟩], [⟨0, 0, 0⟩], [⟨29, 31, 2⟩, ⟨32, 33, 2⟩]] ∧
      Framed lostStep ⟨29, 31, 2⟩ ∧ Framed lostStep ⟨32, 33, 2⟩ := by
  have ok := lostStepSpec.analyze_eq_ok (List.forall_mem_nil _)
  have reported := spans_errors_lostStep
  have last : [⟨29, 31, 2⟩, ⟨32, 33, 2⟩] ∈ (Analysis.ofDeclared
      (.of (lostStepSpec.declarations.flatMap Declaration.entities))).errors.map
        SemanticError.spans := by
    rw [reported]
    simp
  obtain ⟨e, he, spans⟩ := List.mem_map.mp last
  refine ⟨lostStepSpec, _, ofSource_lostStep, ok, reported, ?_⟩
  rcases ((positions ofSource_lostStep).2 _ ok).1 e he with ⟨key, -, none⟩ | framed
  · cases spans.symm.trans none
  · simpa [spans] using framed

end MetaAttack
