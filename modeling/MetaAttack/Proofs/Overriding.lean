import MetaAttack.Proofs.Apart
import MetaAttack.Proofs.Brokenness
import MetaAttack.Proofs.Findings
import MetaAttack.Proofs.Inheritance

/-!
# What the checks of inherited members find

Fields, variables and steps of an asset that has a root are compared with the nearest strict
ancestor that has a member of the name. What is reported is given member by member. From the
comparison with the nearest ancestor it follows, along the chain, that all steps of one name agree.
-/

namespace MetaAttack

open Relation

/-- The error is about a step that overrides or adds to an inherited one. -/
def SemanticError.isOverride : SemanticError → Bool
  | .inheritWithoutDefinition .. | .overrideKindMismatch .. => true
  | _ => false

theorem SemanticError.OfStep.not_isOverride {e : SemanticError} (h : e.OfStep) :
    e.isOverride = false := by
  cases e with
  | inheritWithoutDefinition step span => exact h.elim
  | overrideKindMismatch step line inheritedKind kind span => exact h.elim
  | _ => rfl

namespace Registry

variable {R : Registry} {n m x : String}

/-! ### Members -/

section Members

variable {μ : Type} [Keyed μ] {members : AssetEntry → Table μ} {f : μ}

/-- A member is inherited exactly if a strict ancestor has one of its name. -/
theorem exists_inheritsMember_iff (root : R.schema.Rooted n) :
    (∃ f, R.InheritsMember members n x f) ↔
      ∃ m f, R.schema.Inherits n m ∧ R.MemberAt members m x f := by
  constructor
  · rintro ⟨f, p, m, edge, near, hf⟩
    have path := (Schema.inherits_iff_of_parent R.schema_coherent edge).mpr
      ⟨near.descends R.schema_coherent, near.asset⟩
    exact ⟨m, f, path, hf⟩
  · rintro ⟨m, f, path, hf⟩
    by_contra hno
    have none : ((R.strictAncestors n).findSome? fun a => (members a).find? x) = none := by
      rw [Option.eq_none_iff_forall_ne_some]
      exact fun g hg => hno ⟨g, (findSome?_members_iff root).mp hg⟩
    exact (findSome?_strictAncestors_eq_none_iff root).mp none m path (has_members_iff.mpr ⟨f, hf⟩)

/-- The member has the name of an inherited one, and the asset that it belongs to has a root. -/
def Repeats (R : Registry) (members : AssetEntry → Table μ)
    (report : AssetEntry → μ → μ → SemanticError) (y : AssetEntry × μ) (e : SemanticError) : Prop :=
  R.schema.Rooted y.1.name ∧
    ∃ prior, R.InheritsMember members y.1.name (Keyed.key y.2) prior ∧ e = report y.1 y.2 prior

/-- The check of inherited names reports the members that repeat one. -/
theorem findings_inherited (R : Registry) (members : AssetEntry → Table μ)
    (report : AssetEntry → μ → μ → SemanticError) :
    Findings (R.Repeats members report) (R.allMembers members)
      (R.rooted.flatMap fun a => (members a).entries.filterMap fun f =>
        ((R.strictAncestors a.name).findSome? fun b => (members b).find? (Keyed.key f)).map
          (report a f)) := by
  apply Findings.of_flatMap_filter
  · intro a ha unbroken
    have root := (isBroken_eq_false_iff_of_mem ha).mp (by simpa using unbroken)
    refine Findings.of_map (Findings.of_filterMap fun f _ e => ?_)
    rw [Option.map_eq_some_iff]
    simp only [findSome?_members_iff root]
    constructor
    · rintro ⟨prior, above, rfl⟩
      exact ⟨root, prior, above, rfl⟩
    · rintro ⟨_, prior, above, rfl⟩
      exact ⟨prior, above, rfl⟩
  · rintro a ha broken y hy e ⟨root, _⟩
    obtain ⟨f, _, rfl⟩ := List.mem_map.mp hy
    simp [(isBroken_eq_false_iff_of_mem ha).mpr root] at broken

end Members

/-! ### Steps -/

/-- The step, of an asset that has a root, adds to nothing, or changes the kind of the nearest step
of its name above. -/
inductive OverridesWrongly (R : Registry) : AssetEntry × StepEntry → SemanticError → Prop
  | nothingAbove {a s} (root : R.schema.Rooted a.name) (appends : s.appends = true)
      (none : ∀ m t, R.schema.Inherits a.name m → ¬ R.StepAt m s.name t) :
      OverridesWrongly R (a, s) (.inheritWithoutDefinition s.name s.span)
  | otherKind {a s t} (root : R.schema.Rooted a.name)
      (above : R.InheritsMember AssetEntry.steps a.name s.name t) (differs : t.kind ≠ s.kind) :
      OverridesWrongly R (a, s)
        (.overrideKindMismatch s.name t.span.line t.kind s.kind s.span)

theorem findings_overrideErrors {a : AssetEntry} (root : R.schema.Rooted a.name) (s : StepEntry) :
    Findings (fun s => R.OverridesWrongly (a, s)) [s]
      (s.overrideErrors (R.strictAncestors a.name)) := by
  rw [StepEntry.overrideErrors]
  split
  · next none =>
    have none : ∀ m t, R.schema.Inherits a.name m → ¬ R.StepAt m s.name t := fun m t path ht =>
      (findSome?_strictAncestors_eq_none_iff root).mp none m path (has_steps_iff.mpr ⟨t, ht⟩)
    split
    · next appends => exact .found (.nothingAbove root appends none) .nil
    · next appends =>
      refine .clean ?_ .nil
      rintro _ (⟨_, appends', _⟩ | ⟨_, above, _⟩)
      · exact appends appends'
      · obtain ⟨m, t, path, ht⟩ := (exists_inheritsMember_iff root).mp ⟨_, above⟩
        exact none m t path ht
  · next prior found =>
    have above := (findSome?_members_iff root).mp found
    split
    · next differs => exact .found (.otherKind root above differs) .nil
    · next same =>
      refine .clean ?_ .nil
      rintro _ (⟨_, _, none⟩ | ⟨_, above', differs⟩)
      · obtain ⟨m, t, path, ht⟩ := (exists_inheritsMember_iff root).mp ⟨_, above⟩
        exact none m t path ht
      · rw [(findSome?_members_iff root).mpr above', Option.some.injEq] at found
        exact same (found ▸ differs)

/-- Of all that is reported of a step, overriding is what concerns other steps. -/
theorem filter_isOverride (s : StepEntry) (asset : String) (above : List AssetEntry) (b : Bool) :
    ((if b then s.overrideErrors above else []) ++ s.existenceErrors ++
        s.classificationErrors asset ++ s.ttcErrors asset).filter SemanticError.isOverride =
      if b then s.overrideErrors above else [] := by
  have override : ∀ e ∈ s.overrideErrors above, e.isOverride = true := by
    rw [StepEntry.overrideErrors]
    split
    · split <;> simp [SemanticError.isOverride]
    · split <;> simp [SemanticError.isOverride]
  have own : (s.existenceErrors ++ s.classificationErrors asset ++ s.ttcErrors asset).filter
      SemanticError.isOverride = [] := by
    rw [List.filter_eq_nil_iff]
    intro e he
    simp [(s.only_ownErrors asset e he).not_isOverride]
  rw [List.append_assoc, List.append_assoc, ← List.append_assoc s.existenceErrors,
    List.filter_append, own, List.append_nil]
  cases b with
  | true => exact List.filter_eq_self.mpr override
  | false => rfl

/-- The checks of steps report those that override wrongly. -/
theorem findings_stepErrors (R : Registry) :
    Findings R.OverridesWrongly (R.allMembers AssetEntry.steps)
      (R.stepErrors.filter SemanticError.isOverride) := by
  rw [stepErrors, List.filter_flatMap]
  refine Findings.of_flatMap fun a ha => Findings.of_map ?_
  rw [stepErrorsOf, List.filter_flatMap]
  refine Findings.of_each fun s _ => ?_
  rw [filter_isOverride]
  have rooted := isBroken_eq_false_iff_of_mem ha
  cases hb : R.isBroken a.name with
  | false => exact findings_overrideErrors (rooted.mp hb) s
  | true =>
      have unrooted : ¬ R.schema.Rooted a.name := fun root => by simp [rooted.mpr root] at hb
      refine Findings.of_none fun t _ e wrong => unrooted ?_
      cases wrong with
      | nothingAbove root _ _ => exact root
      | otherKind root _ _ => exact root

/-! ### Whole chains -/

/-- Where every asset has a root, nothing overrides wrongly exactly if the checks find nothing. -/
theorem overrides_of_filter_stepErrors (rooted : ∀ n, R.schema.asset n → R.schema.Rooted n)
    (h : R.stepErrors.filter SemanticError.isOverride = []) :
    ∀ a ∈ R.assets.entries, ∀ s ∈ a.steps.entries,
      s.overrideErrors (R.strictAncestors a.name) = [] := by
  intro a ha s hs
  rw [(findings_overrideErrors (rooted a.name ⟨a, asset?_name_of_mem ha⟩) s).eq_nil_iff,
    List.forall_mem_singleton]
  exact (R.findings_stepErrors.eq_nil_iff.mp h) (a, s) (mem_allMembers.mpr ⟨ha, hs⟩)

/-- Where every step that adds to another inherits one, it also inherits one that adds to none. -/
theorem exists_ground
    (inherit : ∀ n x s, R.StepAt n x s → s.appends → ∃ m, R.schema.Inherits n m ∧ R.schema.step m x)
    (root : R.schema.Rooted n) (path : R.schema.Descends n m) {s : StepEntry}
    (hs : R.StepAt m x s) (appends : s.appends) :
    ∃ k t, R.schema.Inherits m k ∧ R.StepAt k x t ∧ ¬ t.appends := by
  -- The chain below the root shrinks; the step stands anywhere on it.
  induction root generalizing m s with
  | @root n _ top =>
      obtain rfl := path.eq_or_inherits.resolve_right (Schema.not_inherits_of_top top)
      obtain ⟨k, above, _⟩ := inherit n x s hs appends
      exact absurd above (Schema.not_inherits_of_top top)
  | @child n p _ edge _ ih =>
      have onward : ∀ {k}, R.schema.Inherits n k → R.schema.Descends p k := fun above =>
        ((Schema.inherits_iff_of_parent R.schema_coherent edge).mp above).1
      rcases path.eq_or_inherits with rfl | above
      · obtain ⟨k, above, step⟩ := inherit n x s hs appends
        obtain ⟨t, ht⟩ := schema_step_iff.mp step
        by_cases more : t.appends
        · obtain ⟨l, u, above', hu, ground⟩ := ih (onward above) ht more
          exact ⟨l, u, above.trans above', hu, ground⟩
        · exact ⟨k, t, above, ht, more⟩
      · exact ih (onward above) hs appends

/-- What the checks of inherited members find, and what holds where they find nothing. -/
structure InheritanceChecked (R : Registry) : Prop where
  fields : Findings
    (R.Repeats AssetEntry.fields fun a f prior =>
      .duplicateField a.name f.name prior.span.line f.span)
    (R.allMembers AssetEntry.fields) R.inheritedFieldErrors
  bindings : Findings
    (R.Repeats AssetEntry.bindings fun _ v prior =>
      .duplicateVariable v.name prior.span.line v.span)
    (R.allMembers AssetEntry.bindings) R.inheritedVariableErrors
  steps : Findings R.OverridesWrongly (R.allMembers AssetEntry.steps)
    (R.stepErrors.filter SemanticError.isOverride)
  /-- Two steps of one name on a chain have one kind. -/
  kinds : R.extensionErrors = [] → R.stepErrors.filter SemanticError.isOverride = [] →
    ∀ n m m' x s t, R.schema.Descends n m → R.schema.Descends n m' → R.StepAt m x s →
      R.StepAt m' x t → s.kind = t.kind
  /-- Whatever adds to a step has a step above it that adds to none. -/
  grounds : R.extensionErrors = [] → R.stepErrors.filter SemanticError.isOverride = [] →
    ∀ n x s, R.StepAt n x s → s.appends →
      ∃ m t, R.schema.Inherits n m ∧ R.StepAt m x t ∧ ¬ t.appends

theorem inheritanceChecked (R : Registry) : R.InheritanceChecked where
  fields := R.findings_inherited AssetEntry.fields _
  bindings := R.findings_inherited AssetEntry.bindings _
  steps := R.findings_stepErrors
  kinds := by
    intro grounded overrides n m m' x s t path path' hs ht
    have rooted := rooted_of_extensionErrors grounded
    obtain ⟨_, kinds⟩ := (overrides_iff rooted).mp (overrides_of_filter_stepErrors rooted overrides)
    rcases path.total R.schema_coherent path' with below | below
    · rcases below.eq_or_inherits with rfl | above
      · rw [MemberAt.unique hs ht]
      · exact kinds m m' x s t above hs ht
    · rcases below.eq_or_inherits with rfl | above
      · rw [MemberAt.unique hs ht]
      · exact (kinds m' m x t s above ht hs).symm
  grounds := by
    intro grounded overrides n x s hs appends
    have rooted := rooted_of_extensionErrors grounded
    obtain ⟨inherit, _⟩ :=
      (overrides_iff rooted).mp (overrides_of_filter_stepErrors rooted overrides)
    exact exists_ground inherit (rooted n hs.asset) .refl hs appends

end Registry

end MetaAttack
