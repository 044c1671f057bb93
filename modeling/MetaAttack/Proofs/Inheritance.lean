import MetaAttack.Check.Steps
import MetaAttack.Proofs.Roots

/-!
# What is inherited

The strict ancestors of an asset that has a root are those that it inherits from. The checks across
assets are stated over that relation: names of fields and of variables are not declared again, a
step adds only to an inherited one, and steps of one name have one kind.

## Implementation notes

A step is compared with the nearest step of its name above it only. That all steps of one name on a
chain agree follows along the chain, so the chain has to have a root.
-/

namespace MetaAttack

open Relation

namespace Registry

variable {R : Registry} {n m x : String} {β : Type} {f : AssetEntry → Option β} {b : β}

theorem has_of_eq_some {a : AssetEntry} (ha : R.asset? n = some a) (hf : f a = some b) :
    R.Has f n := ⟨a, ha, Option.isSome_iff_exists.mpr ⟨b, hf⟩⟩

/-- Nothing is found on the way up exactly if no ancestor has it. -/
theorem findSome?_ancestors_eq_none_iff :
    (R.ancestors n).findSome? f = none ↔ ∀ m, R.schema.Descends n m → ¬ R.Has f m := by
  constructor
  · rintro h m path ⟨a, ha, hf⟩
    obtain ⟨c, near⟩ := path.exists_nearest R.schema_coherent ⟨a, ha⟩ (P := R.Has f) ⟨a, ha, hf⟩
    obtain ⟨d, hd, hfd⟩ := near.holds
    obtain ⟨y, hy⟩ := Option.isSome_iff_exists.mp hfd
    rw [findSome?_ancestors_iff.mpr ⟨c, d, near, hd, hy⟩] at h
    cases h
  · intro h
    cases hfound : (R.ancestors n).findSome? f with
    | none => rfl
    | some y =>
        obtain ⟨m, a, near, _, _⟩ := findSome?_ancestors_iff.mp hfound
        exact absurd near.holds (h m (near.descends R.schema_coherent))

/-- What is strictly above an asset is what its parent climbs through. -/
theorem strictAncestors_of_parent (root : R.schema.Rooted n) {p : String}
    (edge : R.schema.parent n p) : R.strictAncestors n = R.ancestors p := by
  obtain ⟨a, ha⟩ := root.asset
  obtain ⟨i, hi, rfl⟩ := (schema_parent_iff ha).mp edge
  rw [strictAncestors, ancestors_of_rooted root ha, hi]
  rfl

theorem strictAncestors_of_top (root : R.schema.Rooted n) (top : ∀ p, ¬ R.schema.parent n p) :
    R.strictAncestors n = [] := by
  obtain ⟨a, ha⟩ := root.asset
  have hp : a.parent = none := by
    cases hp : a.parent with
    | none => rfl
    | some i => exact absurd ((schema_parent_iff ha).mpr ⟨i, hp, rfl⟩) (top i.name)
  rw [strictAncestors, ancestors_of_rooted root ha, hp]
  rfl

/-- Nothing is found above an asset exactly if nothing that it inherits from has it. -/
theorem findSome?_strictAncestors_eq_none_iff (root : R.schema.Rooted n) :
    (R.strictAncestors n).findSome? f = none ↔ ∀ m, R.schema.Inherits n m → ¬ R.Has f m := by
  by_cases top : ∀ p, ¬ R.schema.parent n p
  · rw [strictAncestors_of_top root top]
    simp [Schema.not_inherits_of_top top]
  · obtain ⟨p, edge⟩ := Classical.not_forall_not.mp top
    rw [strictAncestors_of_parent root edge, findSome?_ancestors_eq_none_iff]
    simp only [Schema.inherits_iff_of_parent R.schema_coherent edge, and_imp]
    constructor
    · exact fun h m path _ => h m path
    · rintro h m path ⟨a, ha, hf⟩
      exact h m path ⟨a, ha⟩ ⟨a, ha, hf⟩

/-- Strictly above a rooted asset, the nearest hit is that of its parent. -/
theorem findSome?_strictAncestors_iff (root : R.schema.Rooted n) :
    (R.strictAncestors n).findSome? f = some b ↔
      ∃ p m a, R.schema.parent n p ∧ R.schema.Nearest (R.Has f) p m ∧ R.asset? m = some a ∧
        f a = some b := by
  constructor
  · intro h
    by_cases top : ∀ p, ¬ R.schema.parent n p
    · rw [strictAncestors_of_top root top] at h
      cases h
    · obtain ⟨p, edge⟩ := Classical.not_forall_not.mp top
      rw [strictAncestors_of_parent root edge, findSome?_ancestors_iff] at h
      obtain ⟨m, a, found⟩ := h
      exact ⟨p, m, a, edge, found⟩
  · rintro ⟨p, m, a, edge, found⟩
    rw [strictAncestors_of_parent root edge, findSome?_ancestors_iff]
    exact ⟨m, a, found⟩

/-! ### Members -/

section Members

variable {μ : Type} [Keyed μ] {members : AssetEntry → Table μ} {f g : μ}

/-- The asset itself has this member under the name. -/
def MemberAt (R : Registry) (members : AssetEntry → Table μ) (n x : String) (f : μ) : Prop :=
  ∃ a, R.asset? n = some a ∧ (members a).find? x = some f

theorem MemberAt.asset (h : R.MemberAt members n x f) : R.schema.asset n := by
  obtain ⟨a, ha, _⟩ := h
  exact ⟨a, ha⟩

theorem MemberAt.key (h : R.MemberAt members n x f) : Keyed.key f = x := by
  obtain ⟨_, _, hf⟩ := h
  exact Table.key_of_find? hf

/-- An asset has one member of a name. -/
theorem MemberAt.unique (h : R.MemberAt members n x f) (h' : R.MemberAt members n x g) : f = g := by
  obtain ⟨a, ha, hf⟩ := h
  obtain ⟨b, hb, hg⟩ := h'
  obtain rfl : a = b := Option.some.inj (ha.symm.trans hb)
  exact Option.some.inj (hf.symm.trans hg)

theorem has_members_iff :
    R.Has (fun a => (members a).find? x) n ↔ ∃ f, R.MemberAt members n x f := by
  simp only [Has, MemberAt, Option.isSome_iff_exists]
  constructor
  · rintro ⟨a, ha, f, hf⟩
    exact ⟨f, a, ha, hf⟩
  · rintro ⟨f, a, ha, hf⟩
    exact ⟨a, ha, f, hf⟩

/-- The nearest strict ancestor that has a member of the name has this one. -/
def InheritsMember (R : Registry) (members : AssetEntry → Table μ) (n x : String) (f : μ) : Prop :=
  ∃ p m, R.schema.parent n p ∧ R.schema.Nearest (fun c => ∃ g, R.MemberAt members c x g) p m ∧
    R.MemberAt members m x f

/-- What is looked up strictly above a rooted asset is what it inherits. -/
theorem findSome?_members_iff (root : R.schema.Rooted n) :
    ((R.strictAncestors n).findSome? fun a => (members a).find? x) = some f ↔
      R.InheritsMember members n x f := by
  have has : ∀ c, R.schema.asset c →
      (R.Has (fun a => (members a).find? x) c ↔ ∃ g, R.MemberAt members c x g) :=
    fun _ _ => has_members_iff
  rw [findSome?_strictAncestors_iff root]
  simp only [Schema.Nearest.congr R.schema_coherent has]
  constructor
  · rintro ⟨p, m, a, edge, near, ha, hf⟩
    exact ⟨p, m, edge, near, a, ha, hf⟩
  · rintro ⟨p, m, edge, near, a, ha, hf⟩
    exact ⟨p, m, a, edge, near, ha, hf⟩

/-- All members of a kind, each with its asset, in the order of declaration. -/
def allMembers (R : Registry) (members : AssetEntry → Table μ) : List (AssetEntry × μ) :=
  R.assets.entries.flatMap fun a => (members a).entries.map (a, ·)

/-- The members of a registry are those of its entries. -/
theorem mem_allMembers {y : AssetEntry × μ} :
    y ∈ R.allMembers members ↔ y.1 ∈ R.assets.entries ∧ y.2 ∈ (members y.1).entries := by
  obtain ⟨a, f⟩ := y
  simp only [allMembers, List.mem_flatMap, List.mem_map, Prod.mk.injEq]
  constructor
  · rintro ⟨_, ha, _, hf, rfl, rfl⟩
    exact ⟨ha, hf⟩
  · exact fun ⟨ha, hf⟩ => ⟨a, ha, f, hf, rfl, rfl⟩

/-- What holds of the members of all entries holds of all members that a name finds. -/
theorem forall_members_iff (members : AssetEntry → Table μ) {Q : String → μ → Prop} :
    (∀ a ∈ R.assets.entries, ∀ f ∈ (members a).entries, Q a.name f) ↔
      ∀ n x f, R.MemberAt members n x f → Q n f := by
  constructor
  · rintro h n x f ⟨a, ha, hf⟩
    obtain rfl := name_of_asset? ha
    exact h a (mem_of_asset? ha) f (Table.mem_of_find? hf)
  · exact fun h a ha f hf =>
      h a.name (Keyed.key f) f ⟨a, asset?_name_of_mem ha, Table.find?_key_of_mem hf⟩

/-- No member of an asset with a root has the name of an inherited one exactly if none is
reported. -/
theorem inherited_eq_nil_iff (members : AssetEntry → Table μ)
    (report : AssetEntry → μ → μ → SemanticError) :
    (R.rooted.flatMap fun a => (members a).entries.filterMap fun f =>
        ((R.strictAncestors a.name).findSome? fun b => (members b).find? (Keyed.key f)).map
          (report a f)) = [] ↔
      ∀ n, R.schema.Rooted n → ∀ m x f g, R.schema.Inherits n m → R.MemberAt members n x f →
        ¬ R.MemberAt members m x g := by
  rw [List.flatMap_eq_nil_iff]
  simp only [List.filterMap_eq_nil_iff, Option.map_eq_none_iff, mem_rooted_iff]
  constructor
  · rintro h n root m x f g path ⟨a, ha, hf⟩ ⟨b, hb, hg⟩
    obtain rfl := name_of_asset? ha
    obtain rfl := Table.key_of_find? hf
    have above := h a ⟨mem_of_asset? ha, root⟩ f (Table.mem_of_find? hf)
    rw [findSome?_strictAncestors_eq_none_iff root] at above
    exact above m path (has_of_eq_some hb hg)
  · rintro h a ⟨ha, root⟩ f hf
    rw [findSome?_strictAncestors_eq_none_iff root]
    intro m path found
    obtain ⟨g, hg⟩ := has_members_iff.mp found
    exact h a.name root m (Keyed.key f) f g path
      ⟨a, asset?_name_of_mem ha, Table.find?_key_of_mem hf⟩ hg

end Members

/-! ### Names that are declared again -/

theorem schema_field_iff {t : String} :
    R.schema.field n x t ↔ ∃ f, R.MemberAt AssetEntry.fields n x f ∧ f.target = t := by
  constructor
  · rintro ⟨a, ha, f, hf, ht⟩
    exact ⟨f, ⟨a, ha, hf⟩, ht⟩
  · rintro ⟨f, ⟨a, ha, hf⟩, ht⟩
    exact ⟨a, ha, f, hf, ht⟩

theorem schema_binding_iff {e : Expr} :
    R.schema.binding n x e ↔ ∃ v, R.MemberAt AssetEntry.bindings n x v ∧ v.expr = e := by
  constructor
  · rintro ⟨a, ha, v, hv, he⟩
    exact ⟨v, ⟨a, ha, hv⟩, he⟩
  · rintro ⟨v, ⟨a, ha, hv⟩, he⟩
    exact ⟨a, ha, v, hv, he⟩

/-- A property of all variables, in terms of the schema. -/
theorem forall_bindings_iff {Q : String → Expr → Prop} :
    (∀ a ∈ R.assets.entries, ∀ v ∈ a.bindings.entries, Q a.name v.expr) ↔
      ∀ n x e, R.schema.binding n x e → Q n e := by
  rw [forall_members_iff AssetEntry.bindings (Q := fun n v => Q n v.expr)]
  simp only [schema_binding_iff]
  constructor
  · rintro h n x _ ⟨v, hv, rfl⟩
    exact h n x v hv
  · exact fun h n x v hv => h n x v.expr ⟨v, hv, rfl⟩

/-- No field is reported exactly if no rooted asset has one of the name of an inherited one. -/
theorem inheritedFieldErrors_eq_nil_iff :
    R.inheritedFieldErrors = [] ↔
      ∀ n, R.schema.Rooted n → ∀ m x t u, R.schema.Inherits n m → R.schema.field n x t →
        ¬ R.schema.field m x u := by
  refine (inherited_eq_nil_iff AssetEntry.fields fun a f prior =>
    .duplicateField a.name f.name prior.span.line f.span).trans ?_
  simp only [schema_field_iff]
  constructor
  · rintro h n root m x _ _ path ⟨f, hf, _⟩ ⟨g, hg, _⟩
    exact h n root m x f g path hf hg
  · intro h n root m x f g path hf hg
    exact h n root m x f.target g.target path ⟨f, hf, rfl⟩ ⟨g, hg, rfl⟩

/-- The same with variables. -/
theorem inheritedVariableErrors_eq_nil_iff :
    R.inheritedVariableErrors = [] ↔
      ∀ n, R.schema.Rooted n → ∀ m x d e, R.schema.Inherits n m → R.schema.binding n x d →
        ¬ R.schema.binding m x e := by
  refine (inherited_eq_nil_iff AssetEntry.bindings fun _ v prior =>
    .duplicateVariable v.name prior.span.line v.span).trans ?_
  simp only [schema_binding_iff]
  constructor
  · rintro h n root m x _ _ path ⟨v, hv, _⟩ ⟨w, hw, _⟩
    exact h n root m x v w path hv hw
  · intro h n root m x v w path hv hw
    exact h n root m x v.expr w.expr path ⟨v, hv, rfl⟩ ⟨w, hw, rfl⟩

/-! ### Steps that override -/

/-- The asset itself has this step under the name. -/
def StepAt (R : Registry) (n x : String) (s : StepEntry) : Prop :=
  R.MemberAt AssetEntry.steps n x s

theorem StepAt.asset {s : StepEntry} (h : R.StepAt n x s) : R.schema.asset n := MemberAt.asset h

theorem StepAt.name {s : StepEntry} (h : R.StepAt n x s) : s.name = x := MemberAt.key h

/-- The schema has the steps of the entries. -/
theorem schema_step_iff : R.schema.step n x ↔ ∃ s, R.StepAt n x s := by
  constructor
  · rintro ⟨a, ha, s, hs⟩
    exact ⟨s, a, ha, hs⟩
  · rintro ⟨s, a, ha, hs⟩
    exact ⟨a, ha, s, hs⟩

theorem forall_steps_iff {Q : String → StepEntry → Prop} :
    (∀ a ∈ R.assets.entries, ∀ s ∈ a.steps.entries, Q a.name s) ↔
      ∀ n x s, R.StepAt n x s → Q n s := forall_members_iff AssetEntry.steps

theorem has_steps_iff : R.Has (fun a => a.steps.find? x) n ↔ ∃ s, R.StepAt n x s :=
  has_members_iff

/-- Every step has the kind of the nearest step of its name above it. -/
def AgreesUpward (R : Registry) (x : String) : Prop :=
  ∀ n p m s t, R.schema.parent n p → R.StepAt n x s →
    R.schema.Nearest (fun c => ∃ r, R.StepAt c x r) p m → R.StepAt m x t → t.kind = s.kind

/-- Where steps agree upward, the nearest step of a name has the kind of all those above. -/
theorem kind_of_nearest (agree : R.AgreesUpward x) (root : R.schema.Rooted n) {c : String}
    {s t : StepEntry} (near : R.schema.Nearest (fun c => ∃ r, R.StepAt c x r) n c)
    (hs : R.StepAt c x s) (path : R.schema.Descends n m) (ht : R.StepAt m x t) :
    s.kind = t.kind := by
  induction root generalizing c s with
  | @root n _ top =>
      have here : n = m := (path.eq_or_inherits).resolve_right (Schema.not_inherits_of_top top)
      have start : n = c := ((near.descends R.schema_coherent).eq_or_inherits).resolve_right
        (Schema.not_inherits_of_top top)
      obtain rfl := here
      obtain rfl := start
      rw [MemberAt.unique hs ht]
  | @child n p _ edge rest ih =>
      rcases path.eq_or_inherits with rfl | path
      · cases near with
        | here _ _ => rw [MemberAt.unique hs ht]
        | above _ fails _ => exact absurd ⟨t, ht⟩ fails
      · have path := ((Schema.inherits_iff_of_parent R.schema_coherent edge).mp path).1
        cases near with
        | above edge' _ near =>
            obtain rfl := R.schema_coherent.parent edge edge'
            exact ih near hs path
        | here _ _ =>
            obtain ⟨d, near⟩ := path.exists_nearest R.schema_coherent ht.asset
              (P := fun c => ∃ r, R.StepAt c x r) ⟨t, ht⟩
            obtain ⟨r, hr⟩ := near.holds
            rw [← agree n p d s r edge hs near hr]
            exact ih near hr path

/-- A step is in order below a nearest one of its kind, or where it appends nothing and there is
none. -/
theorem overrideErrors_eq_nil_iff {above : List AssetEntry} {s : StepEntry} :
    s.overrideErrors above = [] ↔
      ((above.findSome? fun a => a.steps.find? s.name) = none → ¬ s.appends) ∧
        ∀ prior, (above.findSome? fun a => a.steps.find? s.name) = some prior →
          prior.kind = s.kind := by
  rw [StepEntry.overrideErrors]
  cases above.findSome? fun a => a.steps.find? s.name with
  | none => cases s.appends <;> simp
  | some prior => by_cases h : prior.kind = s.kind <;> simp [h]

/-- Agreeing with the next step above, all the way up, is agreeing with every step above. -/
theorem agreesUpward_iff (rooted : ∀ n, R.schema.asset n → R.schema.Rooted n) :
    (∀ x, R.AgreesUpward x) ↔
      ∀ n m x s t, R.schema.Inherits n m → R.StepAt n x s → R.StepAt m x t → s.kind = t.kind := by
  constructor
  · intro agree n m x s t path hs ht
    exact kind_of_nearest (agree x) (rooted n hs.asset) (.here hs.asset ⟨s, hs⟩) hs
      path.to_reflTransGen ht
  · intro kinds x n p m s t edge hs near ht
    have path := (Schema.inherits_iff_of_parent R.schema_coherent edge).mpr
      ⟨near.descends R.schema_coherent, near.asset⟩
    exact (kinds n m x s t path hs ht).symm

/-- The nearest step of a name above an asset. -/
theorem findSome?_steps_iff (root : R.schema.Rooted n) {t : StepEntry} :
    ((R.strictAncestors n).findSome? fun a => a.steps.find? x) = some t ↔
      ∃ p m, R.schema.parent n p ∧ R.schema.Nearest (fun c => ∃ r, R.StepAt c x r) p m ∧
        R.StepAt m x t := findSome?_members_iff root

/-- For a rooted asset, what is above is what is inherited. -/
theorem overrideErrors_of_rooted (root : R.schema.Rooted n) {s : StepEntry} :
    s.overrideErrors (R.strictAncestors n) = [] ↔
      (s.appends → ∃ m, R.schema.Inherits n m ∧ R.schema.step m s.name) ∧
        ∀ p m t, R.schema.parent n p →
          R.schema.Nearest (fun c => ∃ r, R.StepAt c s.name r) p m → R.StepAt m s.name t →
            t.kind = s.kind := by
  rw [overrideErrors_eq_nil_iff, findSome?_strictAncestors_eq_none_iff root]
  simp only [findSome?_steps_iff root, has_steps_iff, ← schema_step_iff]
  refine and_congr ?_ ?_
  · constructor
    · intro h appends
      apply Classical.byContradiction
      intro hno
      exact h (fun m path step => hno ⟨m, path, step⟩) appends
    · intro h none appends
      obtain ⟨m, path, step⟩ := h appends
      exact none m path step
  · constructor
    · exact fun h p m t edge near ht => h t ⟨p, m, edge, near, ht⟩
    · rintro h t ⟨p, m, edge, near, ht⟩
      exact h p m t edge near ht

/-- Where all chains have a root, overriding is right exactly if what adds to a step inherits one,
and steps of one name on a chain have one kind. -/
theorem overrides_iff (rooted : ∀ n, R.schema.asset n → R.schema.Rooted n) :
    (∀ a ∈ R.assets.entries, ∀ s ∈ a.steps.entries,
        s.overrideErrors (R.strictAncestors a.name) = []) ↔
      (∀ n x s, R.StepAt n x s → s.appends → ∃ m, R.schema.Inherits n m ∧ R.schema.step m x) ∧
        ∀ n m x s t, R.schema.Inherits n m → R.StepAt n x s → R.StepAt m x t →
          s.kind = t.kind := by
  rw [forall_steps_iff (Q := fun n s => s.overrideErrors (R.strictAncestors n) = []),
    ← agreesUpward_iff rooted]
  constructor
  · intro h
    have each := fun n x s (hs : R.StepAt n x s) =>
      (overrideErrors_of_rooted (rooted n hs.asset)).mp (h n x s hs)
    constructor
    · intro n x s hs
      have inherit := (each n x s hs).1
      rwa [hs.name] at inherit
    · intro x n p m s t edge hs
      have agree := (each n x s hs).2 p m t edge
      rwa [hs.name] at agree
  · rintro ⟨inherit, agree⟩ n x s hs
    rw [overrideErrors_of_rooted (rooted n hs.asset), hs.name]
    exact ⟨inherit n x s hs, fun p m t edge => agree x n p m s t edge hs⟩

end Registry

end MetaAttack
