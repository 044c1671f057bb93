import MetaAttack.Proofs.Apart
import MetaAttack.Proofs.Events
import MetaAttack.Proofs.Resolved

/-!
# No failure is silent

A variable that fails again answers without a cause, on the assumption that the cause was reported
when it failed first. The assumption is right: in a session, and in the errors of an analysis, a
failure without causes comes only behind one that has some.

## Implementation notes

As long as nothing was reported, no variable is kept as failed (`Memo.Clean`), and from such a
memory every failure has a cause.
-/

namespace MetaAttack

/-! ### Sessions -/

/-- The causes, if there is no result. -/
def Resolution.failure? {α : Type} : Resolution α → Option (List ResolveError)
  | .ok _ => none
  | .error es => some es

/-- The causes of a reply, if it is a failure. -/
def Reply.failure? : Reply → Option (List ResolveError)
  | .type x => x.failure?
  | .step x => x.failure?

/-- A failure has a cause, and where there is none no variable is kept as failed. -/
def Justified (failure : Option (List ResolveError)) (m : Memo) : Prop :=
  (∀ es, failure = some es → es ≠ []) ∧ (failure = none → m.Clean)

namespace Registry

variable {R : Registry} {m : Memo}

theorem Caused.justified {α : Type} {a : Answer α} (h : Caused a) :
    Justified a.result.failure? a.state.memo := by
  cases hr : a.result with
  | ok t => exact ⟨nofun, fun _ => h.clean hr⟩
  | error es =>
      refine ⟨?_, nofun⟩
      intro es' same
      cases same
      exact h.ne_nil hr

theorem failure?_reply (q : Task) (x : Resolution q.Target) :
    (q.reply x).failure? = x.failure? := by
  cases q <;> rfl

/-- From a clean memory no task fails without a cause, and without a failure the memory stays
clean. -/
theorem resolve_justified {q : Task} (hq : q.state = .idle m) (clean : m.Clean) :
    Justified (R.resolve q).result.failure? (R.resolve q).state.memo := by
  apply (resolve_caused q _).justified
  rw [Task.known, hq]
  exact clean

/-- One query of a session. -/
theorem ask_justified (clean : m.Clean) (q : Query) :
    Justified (R.ask m q).1.failure? (R.ask m q).2 := by
  have justified := resolve_justified (R := R) (q.state_task (.idle m)) clean
  rwa [← failure?_reply] at justified

/-- A failure without causes comes behind one that has some. -/
theorem silent_of_askAll (clean : m.Clean) {qs : List Query} {before after : List Reply}
    {reply : Reply} (split : R.askAll m qs = before ++ reply :: after)
    (silent : reply.failure? = some []) :
    ∃ earlier ∈ before, ∃ es, earlier.failure? = some es ∧ es ≠ [] := by
  induction qs generalizing m before with
  | nil =>
      rw [askAll] at split
      exact absurd split.symm (List.append_ne_nil_of_right_ne_nil _ (List.cons_ne_nil _ _))
  | cons q qs ih =>
      obtain ⟨caused, keeps⟩ : Justified (R.ask m q).1.failure? (R.ask m q).2 :=
        ask_justified clean q
      rw [askAll] at split
      cases before with
      | nil =>
          obtain ⟨first, _⟩ := List.cons.inj split
          rw [← first] at silent
          exact absurd rfl (caused [] silent)
      | cons b before =>
          obtain ⟨first, rest⟩ := List.cons.inj split
          cases hb : (R.ask m q).1.failure? with
          | some es =>
              rw [first] at hb
              exact ⟨b, List.mem_cons_self, es, hb, caused es (first ▸ hb)⟩
          | none =>
              obtain ⟨earlier, mem, told⟩ := ih (keeps hb) rest
              exact ⟨earlier, List.mem_cons_of_mem _ mem, told⟩

/-- Of two variables that call each other the first that is asked for tells of the loop, and the
other one has nothing to add. -/
example :
    let named (n : String) : Ident := ⟨n, .nowhere⟩
    let calls (n m : String) : Variable := ⟨named n, .call (named m) .nowhere, .nowhere⟩
    let host : Asset :=
      ⟨false, named "Host", none, [], [], [calls "here" "there", calls "there" "here"], .nowhere⟩
    let R := (Declared.empty.asset "System" host).registry
    let qs := [Query.binding "Host" (named "here"), Query.binding "Host" (named "there")]
    (R.askAll .empty qs).map Reply.failure? =
        [some [.variableCycle "here" ["here", "there", "here"] .nowhere], some []] ∧
      (R.askAllEvents .empty qs).map entered = [[⟨"Host", "here"⟩, ⟨"Host", "there"⟩], []] := by
  constructor <;> cbv

end Registry

/-! ### Analyses -/

namespace SemanticError

/-- An expression that does not resolve is reported without a cause. -/
def Silent : SemanticError → Prop
  | unresolved [] _ _ => True
  | _ => False

/-- A cause is reported for which an expression does not resolve. -/
def Telling : SemanticError → Prop
  | resolve _ => True
  | unresolved (_ :: _) _ _ => True
  | _ => False

/-- An expression that is reported with a cause is told. -/
theorem telling_unresolved {causes : List ResolveError} {clause : Clause} {span : Span}
    (h : causes ≠ []) : (unresolved causes clause span).Telling := by
  cases causes with
  | nil => exact absurd rfl h
  | cons _ _ => trivial

theorem Telling.not_silent {e : SemanticError} (h : e.Telling) : ¬ e.Silent := by
  intro silent
  cases e with
  | unresolved causes _ _ =>
      cases causes with
      | nil => exact h
      | cons _ _ => exact silent
  | _ => exact silent

theorem not_silent_of_unresolvedAt? {e : SemanticError} (h : e.unresolvedAt? = none) :
    ¬ e.Silent := by
  cases e with
  | unresolved => cases h
  | _ => exact id

end SemanticError

/-- Each error without a cause comes behind one that tells a cause. -/
def Excused (es : List SemanticError) : Prop :=
  ∀ before e after, es = before ++ e :: after → e.Silent → ∃ d ∈ before, d.Telling

/-- Where no error is silent, nothing has to be excused. -/
theorem excused_of_not_silent {es : List SemanticError} (h : ∀ e ∈ es, ¬ e.Silent) :
    Excused es := by
  rintro before e after rfl silent
  exact absurd silent (h e (List.mem_append_right _ List.mem_cons_self))

/-- Behind an error that tells a cause anything is excused. -/
theorem Excused.append {es fs : List SemanticError} (h : Excused es)
    (h' : (∃ d ∈ es, d.Telling) ∨ Excused fs) : Excused (es ++ fs) := by
  intro before e after split silent
  have behind : ∀ mid, fs = mid ++ e :: after → ∃ d ∈ es ++ mid, d.Telling := by
    intro mid hfs
    cases h' with
    | inl told =>
        obtain ⟨d, hd, telling⟩ := told
        exact ⟨d, List.mem_append_left _ hd, telling⟩
    | inr excused =>
        obtain ⟨d, hd, telling⟩ := excused mid e after hfs silent
        exact ⟨d, List.mem_append_right _ hd, telling⟩
  obtain ⟨mid, rfl, hfs⟩ | ⟨mid, hes, hsplit⟩ := List.append_eq_append_iff.mp split
  · exact behind mid hfs
  · cases mid with
    | nil =>
        rw [List.append_nil] at hes
        have found := behind [] hsplit.symm
        rwa [List.append_nil, hes] at found
    | cons f mid =>
        obtain ⟨rfl, _⟩ := List.cons.inj hsplit
        exact h before e mid hes silent

/-- From a memory without failures, errors without a cause are excused among those added, and if a
variable is kept as failed, a cause was told. -/
def Told (m : Memo) (es : List SemanticError) (m' : Memo) : Prop :=
  m.Clean → Excused es ∧ (m'.Clean ∨ ∃ d ∈ es, d.Telling)

theorem told_nil (m : Memo) : Told m [] m := by
  intro clean
  exact ⟨excused_of_not_silent fun _ h => absurd h List.not_mem_nil, .inl clean⟩

/-- What is told first is told for what comes later. -/
theorem Told.trans {m₁ m₂ m₃ : Memo} {es fs : List SemanticError} (h : Told m₁ es m₂)
    (h' : Told m₂ fs m₃) : Told m₁ (es ++ fs) m₃ := by
  intro clean
  obtain ⟨excused, clean' | ⟨d, hd, telling⟩⟩ := h clean
  · obtain ⟨excused', clean'' | ⟨d, hd, telling⟩⟩ := h' clean'
    · exact ⟨excused.append (.inr excused'), .inl clean''⟩
    · exact ⟨excused.append (.inr excused'), .inr ⟨d, List.mem_append_right _ hd, telling⟩⟩
  · exact ⟨excused.append (.inl ⟨d, hd, telling⟩), .inr ⟨d, List.mem_append_left _ hd, telling⟩⟩

/-- The errors that are made of a justified failure. -/
theorem Justified.told {failure : Option (List ResolveError)} {m m' : Memo}
    {report : List ResolveError → List SemanticError}
    (justified : m.Clean → Justified failure m')
    (some : ∀ causes, causes ≠ [] → report causes ≠ [])
    (telling : ∀ causes, causes ≠ [] → ∀ d ∈ report causes, d.Telling) :
    Told m (failure.elim [] report) m' := by
  intro clean
  obtain ⟨caused, keeps⟩ := justified clean
  cases failure with
  | none => exact ⟨(told_nil m clean).1, .inl (keeps rfl)⟩
  | some causes =>
      have cause := caused causes rfl
      obtain ⟨d, hd⟩ := List.exists_mem_of_ne_nil _ (some causes cause)
      exact ⟨excused_of_not_silent fun e he => (telling causes cause e he).not_silent,
        .inr ⟨d, hd, telling causes cause d hd⟩⟩

theorem resolveEach_told {α : Type} {resolve : Memo → Expr → Resolution α × Memo}
    (justified : ∀ m e, m.Clean → Justified (resolve m e).1.failure? (resolve m e).2)
    (clause : Clause) (span : Span) (m : Memo) (es : List Expr) :
    let x := resolveEach resolve (.unresolved · clause span) m es
    Told m x.2.2 x.1 := by
  induction es generalizing m with
  | nil => exact told_nil m
  | cons e es ih =>
      have first : Told m ((resolve m e).1.failure?.elim [] fun causes =>
          [.unresolved causes clause span]) (resolve m e).2 := by
        apply Justified.told (justified m e)
        · exact fun causes _ => List.cons_ne_nil _ _
        · intro causes cause d hd
          rw [List.mem_singleton.mp hd]
          exact SemanticError.telling_unresolved cause
      have all := first.trans (ih (resolve m e).2)
      dsimp only
      rw [resolveEach]
      dsimp only
      cases hr : (resolve m e).1 with
      | ok t =>
          rw [hr] at all
          exact all
      | error causes =>
          rw [hr] at all
          exact all

namespace Registry

variable {R : Registry}

/-- What is added to the errors tells enough for what is added to the memory. -/
def Adds (p q : Progress) : Prop := ∃ es, q.errors = p.errors ++ es ∧ Told p.memo es q.memo

theorem Adds.refl (p : Progress) : Adds p p := ⟨[], (List.append_nil _).symm, told_nil p.memo⟩

theorem Adds.trans {p q r : Progress} (h : Adds p q) (h' : Adds q r) : Adds p r := by
  obtain ⟨es, errors, told⟩ := h
  obtain ⟨fs, errors', told'⟩ := h'
  exact ⟨es ++ fs, by rw [errors', errors, List.append_assoc], told.trans told'⟩

/-- Each step of the analysis adds to what was told, so all of them do. -/
theorem adds_foldl {β : Type} {f : Progress → β → Progress} (h : ∀ p x, Adds p (f p x))
    (p : Progress) (xs : List β) : Adds p (xs.foldl f p) := by
  induction xs generalizing p with
  | nil => exact .refl p
  | cons x xs ih => exact (h p x).trans (ih (f p x))

theorem adds_resolveVariable (R : Registry) (asset : String) (p : Progress) (v : VariableEntry) :
    Adds p (R.resolveVariable asset p v) := by
  have told : Told p.memo
      ((R.typeOfVariable [] p.memo ⟨asset, v.name⟩ v.span).result.failure?.elim []
        fun causes => causes.map .resolve)
      (R.typeOfVariable [] p.memo ⟨asset, v.name⟩ v.span).memo := by
    apply Justified.told (resolve_justified rfl)
    · exact fun causes cause => by simpa using cause
    · intro causes _ d hd
      obtain ⟨c, _, rfl⟩ := List.mem_map.mp hd
      trivial
  refine ⟨_, ?_, told⟩
  change p.errors ++ _ = _
  congr 1
  cases (R.typeOfVariable [] p.memo ⟨asset, v.name⟩ v.span).result <;> rfl

theorem adds_resolveStep (R : Registry) (asset : String) (p : Progress) (s : StepEntry) :
    Adds p (R.resolveStep asset p s) := by
  have required : Told p.memo (R.askRequires asset p.memo s).2.2
      (R.askRequires asset p.memo s).1 := by
    rw [askRequires]
    cases s.requires with
    | none => exact told_nil p.memo
    | some c =>
        exact resolveEach_told (fun m e => resolve_justified rfl) _ c.span p.memo c.exprs
  have reached : ∀ m, Told m (R.askReaches asset m s).2.2 (R.askReaches asset m s).1 := by
    intro m
    rw [askReaches]
    cases s.reaches with
    | none => exact told_nil m
    | some c =>
        exact resolveEach_told (fun m e => resolve_justified rfl) _ c.span m c.exprs
  rw [resolveStep_eq]
  exact ⟨_, List.append_assoc .., required.trans (reached _)⟩

/-- Variables and steps are gone through in one go, so a cause is told before anything is silent. -/
theorem excused_resolveAll (R : Registry) : Excused R.resolveAll.errors := by
  have bound : Adds ⟨.empty, [], []⟩ R.variablesProgress :=
    adds_foldl (fun p (x : String × VariableEntry) => R.adds_resolveVariable x.1 p x.2) _ _
  have all : Adds R.variablesProgress R.resolveAll := by
    rw [resolveAll_eq]
    exact adds_foldl (fun p (x : String × StepEntry) => R.adds_resolveStep x.1 p x.2) _ _
  obtain ⟨es, errors, told⟩ := bound.trans all
  rw [errors, List.nil_append]
  exact (told Memo.clean_empty).1

end Registry

namespace Analysis

theorem excused_ofDeclared {s : Declared} (apart : Apart s.errors) :
    Excused (ofDeclared s).errors := by
  obtain ⟨es, apart, errors⟩ := apart_ofDeclared apart
  rw [errors]
  apply Excused.append
  · exact excused_of_not_silent fun e he => SemanticError.not_silent_of_unresolvedAt? (apart e he)
  · exact .inr (Registry.excused_resolveAll _)

end Analysis

/-- In every session a failure without causes comes behind one with causes, no body is evaluated
twice, and each reply has the causes that were found for it, in the order in which they were found.
In every analysis an error without causes comes behind one that tells a cause. -/
theorem no_failure_is_silent :
    (∀ (R : Registry) (qs : List Query),
      (∀ before reply after, R.askAll .empty qs = before ++ reply :: after →
        reply.failure? = some [] →
          ∃ earlier ∈ before, ∃ es, earlier.failure? = some es ∧ es ≠ []) ∧
      (entered (R.askAllEvents .empty qs).flatten).Nodup ∧
      List.Forall₂ (fun reply events => reply.causes = causes events) (R.askAll .empty qs)
        (R.askAllEvents .empty qs)) ∧
    ∀ fs : List Feed, Excused (Analyzer.empty.run fs).finish.errors := by
  constructor
  · intro R qs
    refine ⟨?_, ?_, R.askAll_causes .empty qs⟩
    · intro before reply after split silent
      exact Registry.silent_of_askAll Memo.clean_empty split silent
    · have known : Memo.empty.keys.Nodup := List.nodup_nil
      exact R.nodup_entered known qs
  · intro fs
    rw [Analyzer.finish_run]
    exact Analysis.excused_ofDeclared (Declared.apart_of _)

end MetaAttack
