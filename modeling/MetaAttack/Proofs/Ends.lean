import MetaAttack.Proofs.Fields
import MetaAttack.Proofs.Firsts
import MetaAttack.Proofs.Registered

/-!
# Ends of associations

Each end of an association between declared assets becomes a field of the asset at the other end or
is refused with one error. Which of the two it is depends on the steps of the asset and on the ends
that came earlier, so the ends are judged in order.

## Implementation notes

The placement keeps what it has placed in the registry. Here the ends that came earlier are kept in
a list instead: `Registry.judged` says of each end whether it is refused, and both the fields and
the errors of the placement are read off that list.
-/

namespace MetaAttack

/-- The two ends of an association. The left asset gets the field that is written on the right,
which leads to the right asset, and the other way round. -/
def Association.ends (a : Association) : List OwnedField :=
  [{ owner := a.leftAsset.name
     field :=
      { name := a.rightField.name
        target := a.rightAsset.name
        multiplicity := a.rightMult
        association := a.name.name
        span := a.span } },
    { owner := a.rightAsset.name
      field :=
      { name := a.leftField.name
        target := a.leftAsset.name
        multiplicity := a.leftMult
        association := a.name.name
        span := a.span } }]

namespace Registry

variable {R : Registry} {f : OwnedField} {fs gs before : List OwnedField} {a : AssetEntry}

/-! ### Judging ends -/

/-- The step that an asset has under a name. -/
def stepAt? (R : Registry) (n x : String) : Option StepEntry :=
  (R.asset? n).bind fun a => a.steps.find? x

/-- Why an end does not become a field, where the ends `before` came earlier: a step of the asset
has its name, or else an earlier end of the asset has. -/
def refusal? (R : Registry) (before : List OwnedField) (f : OwnedField) : Option SemanticError :=
  match R.stepAt? f.owner f.field.name with
  | some s => some (.fieldDefinedAsStep f.owner f.field.name s.span.line f.field.span)
  | none =>
      (before.find? fun g => g.key = f.key).map fun first =>
        .duplicateField f.owner f.field.name first.field.span.line f.field.span

/-- The ends in order, each with its refusal if there is one. -/
def judged (R : Registry) (before : List OwnedField) :
    List OwnedField → List (OwnedField × Option SemanticError)
  | [] => []
  | f :: fs => (f, R.refusal? before f) :: R.judged (before ++ [f]) fs

/-- The ends that are not refused. -/
def kept (R : Registry) (before fs : List OwnedField) : List OwnedField :=
  ((R.judged before fs).filter fun j => j.2.isNone).map Prod.fst

/-- The refusals of the other ends. -/
def refusals (R : Registry) (before fs : List OwnedField) : List SemanticError :=
  (R.judged before fs).filterMap Prod.snd

/-- Ends are judged in order, each against those before it. -/
theorem judged_append (R : Registry) (before fs gs : List OwnedField) :
    R.judged before (fs ++ gs) = R.judged before fs ++ R.judged (before ++ fs) gs := by
  induction fs generalizing before with
  | nil => rw [List.append_nil]; rfl
  | cons f fs ih =>
      rw [List.cons_append, judged, judged, ih, List.append_assoc, List.singleton_append,
        List.cons_append]

/-- Each end is refused for one reason at most. -/
theorem refusals_cons (R : Registry) (before : List OwnedField) (f : OwnedField)
    (fs : List OwnedField) :
    R.refusals before (f :: fs) =
      (R.refusal? before f).toList ++ R.refusals (before ++ [f]) fs := by
  rw [refusals, judged, List.filterMap_cons]
  cases R.refusal? before f <;> rfl

theorem refusals_append (R : Registry) (before fs gs : List OwnedField) :
    R.refusals before (fs ++ gs) = R.refusals before fs ++ R.refusals (before ++ fs) gs := by
  rw [refusals, judged_append, List.filterMap_append]
  rfl

/-- Every end is either kept or refused. -/
theorem length_kept_add_length_refusals (R : Registry) (before fs : List OwnedField) :
    (R.kept before fs).length + (R.refusals before fs).length = fs.length := by
  induction fs generalizing before with
  | nil => rfl
  | cons f fs ih =>
      have rest := ih (before ++ [f])
      rw [kept, refusals] at rest
      rw [kept, refusals, judged]
      cases h : R.refusal? before f with
      | none => simp at rest ⊢; omega
      | some e => simp at rest ⊢; omega

/-- An end that is not refused is kept. -/
theorem kept_cons_of_none (h : R.refusal? before f = none) :
    R.kept before (f :: fs) = f :: R.kept (before ++ [f]) fs := by
  rw [kept, judged, h]
  rfl

theorem kept_cons_of_some {e : SemanticError} (h : R.refusal? before f = some e) :
    R.kept before (f :: fs) = R.kept (before ++ [f]) fs := by
  rw [kept, judged, h]
  rfl

/-! ### Fields -/

/-- Where no step has the name, the first of the open fields of the name is that of the first
end. -/
theorem find?_openTo {x : String} (free : a.steps.find? x = none) (fs : List OwnedField) :
    ((a.openTo fs).find? fun g => g.name = x) =
      (fs.find? fun g => g.key = (a.name, x)).map OwnedField.field := by
  rw [AssetEntry.openTo, List.find?_filter, List.find?_map, List.find?_filter]
  congr 2
  funext g
  by_cases hx : g.field.name = x
  · simp [OwnedField.key, hx, free]
  · simp [OwnedField.key, hx]

theorem stepAt?_of_asset {x : String} (ha : R.asset? a.name = some a) :
    R.stepAt? a.name x = a.steps.find? x := by
  rw [stepAt?, ha, Option.bind_some]

/-- A step of this name refuses the end, whatever else is wrong with it. -/
theorem refusal?_of_step {s : StepEntry} (h : R.stepAt? f.owner f.field.name = some s) :
    R.refusal? before f =
      some (.fieldDefinedAsStep f.owner f.field.name s.span.line f.field.span) := by
  rw [refusal?, h]

/-- An end that no step stands in the way of is refused only for an earlier end of the same name. It
is the first one that is mentioned. -/
theorem refusal?_of_free (h : R.stepAt? f.owner f.field.name = none) :
    R.refusal? before f = (before.find? fun g => g.key = f.key).map fun first =>
      .duplicateField f.owner f.field.name first.field.span.line f.field.span := by
  rw [refusal?, h]

/-- Of the fields that are open to an asset, the first of each name are its ends that are kept. -/
theorem firstsAfter_openTo (ha : R.asset? a.name = some a) (before fs : List OwnedField) :
    firstsAfter FieldEntry.name (a.openTo before) (a.openTo fs) =
      ((R.kept before fs).filter fun f => f.owner = a.name).map OwnedField.field := by
  induction fs generalizing before with
  | nil => rfl
  | cons f fs ih =>
      have rest := ih (before ++ [f])
      rw [AssetEntry.openTo_append] at rest
      rw [← List.singleton_append, AssetEntry.openTo_append, List.singleton_append]
      -- An end of another asset, or one that a step stands in the way of, is on neither side. Any
      -- other is looked for on both, among the earlier ends and among those of them that are open.
      by_cases owner : f.owner = a.name
      · cases step : a.steps.find? f.field.name with
        | some s =>
            have closed : a.openTo [f] = [] :=
              AssetEntry.openTo_singleton_of_not_open fun _ => by simp [step]
            have taken : R.stepAt? f.owner f.field.name = some s := by
              rw [owner, stepAt?_of_asset ha, step]
            have refused : R.refusal? before f = _ := refusal?_of_step taken
            rw [closed, List.append_nil] at rest
            rw [closed, List.nil_append, kept_cons_of_some refused, rest]
        | none =>
            have free : R.stepAt? f.owner f.field.name = none := by
              rw [owner, stepAt?_of_asset ha, step]
            have opened := AssetEntry.openTo_singleton_of_open owner step
            have earlier := find?_openTo step before
            rw [opened] at rest
            rw [opened, List.singleton_append, firstsAfter, earlier]
            cases found : before.find? fun g => g.key = (a.name, f.field.name) with
            | none =>
                have fresh : R.refusal? before f = none := by
                  rw [refusal?_of_free free, OwnedField.key, owner, found, Option.map_none]
                rw [kept_cons_of_none fresh, List.filter_cons_of_pos (by simpa using owner),
                  List.map_cons, ← rest]
                rfl
            | some first =>
                obtain ⟨e, taken⟩ : ∃ e, R.refusal? before f = some e :=
                  ⟨_, by rw [refusal?_of_free free, OwnedField.key, owner, found, Option.map_some]⟩
                rw [kept_cons_of_some taken, ← rest]
                rfl
      · have closed : a.openTo [f] = [] :=
          AssetEntry.openTo_singleton_of_not_open fun h => absurd h owner
        rw [closed, List.append_nil] at rest
        rw [closed, List.nil_append, rest]
        cases h : R.refusal? before f with
        | none =>
            rw [kept_cons_of_none h, List.filter_cons_of_neg (by simpa using owner)]
        | some e => rw [kept_cons_of_some h]

/-! ### Errors -/

/-- No asset has a field. -/
def Fieldless (R : Registry) : Prop := ∀ a ∈ R.assets.entries, a.fields = .empty

/-- Placing an end next to those kept so far reports what judging reports. -/
theorem placeField_widen (bare : R.Fieldless) (known : R.schema.asset f.owner)
    (before : List OwnedField) :
    ((R.widen before).placeField f).2 = (R.refusal? before f).toList := by
  obtain ⟨a, ha⟩ := known
  have name : a.name = f.owner := name_of_asset? ha
  have fields : (a.widen before).fields.find? f.field.name =
      (a.openTo before).find? fun g => g.name = f.field.name := by
    rw [AssetEntry.find?_fields_widen, bare a (mem_of_asset? ha)]
    rfl
  rw [placeField, asset?_widen, ha, Option.map_some]
  dsimp only
  rw [fields]
  have step : R.stepAt? f.owner f.field.name = (a.widen before).steps.find? f.field.name := by
    rw [stepAt?, ha]
    rfl
  cases hs : (a.widen before).steps.find? f.field.name with
  | some s => rw [refusal?_of_step (step.trans hs), Option.toList_some]
  | none =>
      have free : a.steps.find? f.field.name = none := hs
      rw [refusal?_of_free (step.trans hs), find?_openTo free, name]
      cases hf : before.find? fun g => g.key = (f.owner, f.field.name) with
      | none =>
          rw [OwnedField.key, hf]
          rfl
      | some first =>
          rw [OwnedField.key, hf]
          rfl

/-- Placing the ends in order refuses what the list of refusals says, by induction on the ends that
are left. -/
theorem placeFields_widen (bare : R.Fieldless) (known : ∀ f ∈ fs, R.schema.asset f.owner)
    (before : List OwnedField) :
    ((R.widen before).placeFields fs).2 = R.refusals before fs := by
  induction fs generalizing before with
  | nil => rfl
  | cons f fs ih =>
      obtain ⟨hf, hfs⟩ := List.forall_mem_cons.mp known
      rw [placeFields_cons, ← widen_append, ih hfs, placeField_widen bare hf, refusals_cons]

end Registry

/-- The error is about an asset that is not declared. -/
def SemanticError.isUndefinedAsset : SemanticError → Bool
  | .undefinedAsset .. => true
  | _ => false

namespace Registry

variable {R Q : Registry} {f : OwnedField} {fs gs before : List OwnedField} {e : SemanticError}

/-- An end that is not declared is reported as such. -/
theorem isUndefinedAsset_of_mem_undefinedEnds {a : AssociationEntry}
    (h : e ∈ a.undefinedEnds R) : e.isUndefinedAsset = true := by
  obtain ⟨i, _, h⟩ := List.mem_filterMap.mp h
  split at h
  · cases h
  · cases h
    rfl

/-- A refusal is never reported that way, so the two kinds of errors can be told apart. -/
theorem isUndefinedAsset_of_refusal? (h : R.refusal? before f = some e) :
    e.isUndefinedAsset = false := by
  rw [refusal?] at h
  split at h
  · cases h
    rfl
  · obtain ⟨_, _, rfl⟩ := Option.map_eq_some_iff.mp h
    rfl

/-- The ends that are judged are those listed, each after those in front of it. -/
theorem mem_judged {r : Option SemanticError} (h : (f, r) ∈ R.judged before fs) :
    ∃ pre post, fs = pre ++ f :: post ∧ r = R.refusal? (before ++ pre) f := by
  induction fs generalizing before with
  | nil => cases h
  | cons g fs ih =>
      rw [judged] at h
      rcases List.mem_cons.mp h with h | h
      · cases h
        exact ⟨[], fs, rfl, by rw [List.append_nil]⟩
      · obtain ⟨pre, post, rfl, rfl⟩ := ih h
        exact ⟨g :: pre, post, rfl, by rw [List.append_assoc, List.singleton_append]⟩

theorem isUndefinedAsset_of_mem_refusals (h : e ∈ R.refusals before fs) :
    e.isUndefinedAsset = false := by
  obtain ⟨⟨f, r⟩, hj, rfl⟩ := List.mem_filterMap.mp h
  obtain ⟨_, _, _, refused⟩ := mem_judged hj
  exact isUndefinedAsset_of_refusal? refused.symm

/-- Whether an end is declared does not depend on fields. -/
theorem undefinedEnds_widen (fs : List OwnedField) (a : AssociationEntry) :
    a.undefinedEnds (R.widen fs) = a.undefinedEnds R := by
  simp only [AssociationEntry.undefinedEnds, hasAsset_widen]

/-- The errors of the placement are those on assets that are not declared, together with the
refusals. -/
theorem filter_placeAssociations (bare : R.Fieldless) (before : List OwnedField)
    (as : List AssociationEntry) :
    let es := ((R.widen before).placeAssociations as).2
    es.filter SemanticError.isUndefinedAsset = as.flatMap (·.undefinedEnds R) ∧
      es.filter (fun e => !e.isUndefinedAsset) = R.refusals before (R.placeable as) := by
  induction as generalizing before with
  | nil => exact ⟨rfl, rfl⟩
  | cons a as ih =>
      dsimp only at ih ⊢
      -- Fields are placed only where both ends are declared, so no association adds to both lists.
      by_cases h : a.undefinedEnds R = []
      · have owners : ∀ f ∈ a.ends, R.schema.asset f.owner := by
          intro f hf
          have placed : f ∈ R.placeable [a] := by
            rw [placeable_cons_of_declared h]
            exact List.mem_append_left _ hf
          exact (asset_target_of_mem_placeable placed).1
        have refused : ∀ e ∈ R.refusals before a.ends, e.isUndefinedAsset = false :=
          fun _ => isUndefinedAsset_of_mem_refusals
        obtain ⟨undeclared, rest⟩ := ih (before ++ a.ends)
        rw [placeAssociations_cons_of_declared ((undefinedEnds_widen before a).trans h),
          ← widen_append, placeFields_widen bare owners, placeable_cons_of_declared h,
          refusals_append, List.filter_append, List.filter_append, undeclared, rest,
          List.flatMap_cons, h]
        constructor
        · rw [List.filter_eq_nil_iff.mpr (by simpa using refused)]
        · rw [List.filter_eq_self.mpr (by simpa using refused)]
      · have undefined : ∀ e ∈ a.undefinedEnds R, e.isUndefinedAsset = true :=
          fun _ => isUndefinedAsset_of_mem_undefinedEnds
        obtain ⟨undeclared, rest⟩ := ih before
        rw [placeAssociations_cons_of_undeclared (by rwa [undefinedEnds_widen]),
          undefinedEnds_widen, placeable_cons_of_undeclared h, List.filter_append,
          List.filter_append, undeclared, rest, List.flatMap_cons]
        constructor
        · rw [List.filter_eq_self.mpr undefined]
        · rw [List.filter_eq_nil_iff.mpr (by simpa using undefined), List.nil_append]

/-- Why an end is refused, as the registry with all fields has it: a step of the asset bears the
name, or else a field of the asset does. The error names the line of that step or field. -/
inductive Refuses (Q : Registry) (f : OwnedField) : SemanticError → Prop
  | step {s} (taken : Q.MemberAt AssetEntry.steps f.owner f.field.name s) :
      Refuses Q f (.fieldDefinedAsStep f.owner f.field.name s.span.line f.field.span)
  | field {g} (free : ∀ s, ¬ Q.MemberAt AssetEntry.steps f.owner f.field.name s)
      (taken : Q.MemberAt AssetEntry.fields f.owner f.field.name g) :
      Refuses Q f (.duplicateField f.owner f.field.name g.span.line f.field.span)

/-- Fields do not change the steps that an asset inherits. -/
theorem memberAt_steps_widen {n x : String} {s : StepEntry} :
    (R.widen fs).MemberAt AssetEntry.steps n x s ↔ R.stepAt? n x = some s := by
  rw [MemberAt, exists_asset?_widen, stepAt?, Option.bind_eq_some_iff]
  rfl

/-- Under a name that no step of it has, an asset gets the first of its ends of the name. -/
theorem memberAt_fields_widen (bare : R.Fieldless) {n x : String} {g : FieldEntry} :
    (R.widen fs).MemberAt AssetEntry.fields n x g ↔
      R.schema.asset n ∧ R.stepAt? n x = none ∧
        (fs.find? fun f => f.key = (n, x)).map OwnedField.field = some g := by
  rw [MemberAt, exists_asset?_widen]
  constructor
  · rintro ⟨a, ha, hg⟩
    obtain rfl := name_of_asset? ha
    rw [AssetEntry.find?_fields_widen, bare a (mem_of_asset? ha)] at hg
    have free : a.steps.find? x = none := by
      have opened := (AssetEntry.mem_openTo.mp (List.mem_of_find?_eq_some hg)).2
      have name : g.name = x := by simpa using List.find?_some hg
      rwa [name] at opened
    exact ⟨⟨a, ha⟩, (stepAt?_of_asset ha).trans free, (find?_openTo free fs).symm.trans hg⟩
  · rintro ⟨⟨a, ha⟩, free, hg⟩
    obtain rfl := name_of_asset? ha
    rw [stepAt?_of_asset ha] at free
    refine ⟨a, ha, ?_⟩
    rw [AssetEntry.find?_fields_widen, bare a (mem_of_asset? ha), find?_openTo free]
    exact hg

/-- What an end is refused for stands in the registry in the end. -/
theorem refuses_of_mem_judged (bare : R.Fieldless) (known : ∀ f ∈ fs, R.schema.asset f.owner)
    (h : (f, some e) ∈ R.judged [] fs) : (R.widen fs).Refuses f e := by
  obtain ⟨pre, post, rfl, refused⟩ := mem_judged h
  rw [List.nil_append] at refused
  have owner := known f (List.mem_append_right _ List.mem_cons_self)
  cases hs : R.stepAt? f.owner f.field.name with
  | some s =>
      rw [refusal?_of_step hs] at refused
      obtain rfl := Option.some.inj refused
      exact .step (memberAt_steps_widen.mpr hs)
  | none =>
      rw [refusal?_of_free hs] at refused
      obtain ⟨first, found, rfl⟩ := Option.map_eq_some_iff.mp refused.symm
      refine .field (fun s hs' => ?_) ((memberAt_fields_widen bare).mpr ⟨owner, hs, ?_⟩)
      · rw [memberAt_steps_widen, hs] at hs'
        cases hs'
      · -- What an end finds in front of it is what the whole list finds first.
        rw [List.find?_append]
        change Option.map _ ((pre.find? fun g => g.key = f.key).or _) = _
        rw [found]
        rfl

/-- Elements that are gathered under the names in turn are all gathered once. -/
theorem perm_flatMap_filter {α : Type} {key : α → String} {ns : List String} (nodup : ns.Nodup)
    {l : List α} (covered : ∀ x ∈ l, key x ∈ ns) :
    (ns.flatMap fun n => l.filter fun x => key x = n).Perm l := by
  induction ns generalizing l with
  | nil => rw [List.eq_nil_iff_forall_not_mem.mpr fun x hx => List.not_mem_nil (covered x hx)]; rfl
  | cons n ns ih =>
      obtain ⟨fresh, nodup⟩ := List.nodup_cons.mp nodup
      have others : (ns.flatMap fun m => l.filter fun x => key x = m) =
          ns.flatMap fun m =>
            (l.filter fun x => !decide (key x = n)).filter fun x => key x = m := by
        apply List.flatMap_congr
        intro m hm
        rw [List.filter_filter]
        apply List.filter_congr
        intro x _
        by_cases h : key x = m
        · have other : m ≠ n := fun same => fresh (same ▸ hm)
          simp [h, other]
        · simp [h]
      rw [List.flatMap_cons, others]
      refine ((ih nodup ?_).append_left _).trans (List.filter_append_perm _ l)
      intro x hx
      obtain ⟨hx, hn⟩ := List.mem_filter.mp hx
      exact (List.mem_cons.mp (covered x hx)).resolve_left (by simpa using hn)

/-- What an asset gets is what was kept for it, in order. -/
theorem fields_widen (bare : R.Fieldless) (fs : List OwnedField) {a : AssetEntry}
    (h : a ∈ (R.widen fs).assets.entries) :
    a.fields.entries = ((R.kept [] fs).filter fun f => f.owner = a.name).map OwnedField.field := by
  obtain ⟨b, hb, rfl⟩ := List.mem_map.mp h
  change (b.fields.insertAll (b.openTo fs)).entries = _
  rw [bare b hb, Table.entries_insertAll_empty]
  exact firstsAfter_openTo (asset?_name_of_mem hb) [] fs

/-- Nothing is kept that was not to be placed. -/
theorem mem_of_mem_kept (h : f ∈ R.kept before fs) : f ∈ fs := by
  obtain ⟨⟨_, r⟩, hj, rfl⟩ := List.mem_map.mp h
  obtain ⟨pre, post, rfl, _⟩ := mem_judged (List.mem_filter.mp hj).1
  exact List.mem_append_right _ List.mem_cons_self

/-- The fields of all assets are the ends that are kept. -/
theorem perm_allMembers_widen (bare : R.Fieldless) (known : ∀ f ∈ fs, R.schema.asset f.owner) :
    (((R.widen fs).allMembers AssetEntry.fields).map Prod.snd).Perm
      ((R.kept [] fs).map OwnedField.field) := by
  have gathered : ((R.widen fs).allMembers AssetEntry.fields).map Prod.snd =
      (((R.widen fs).assets.entries.map AssetEntry.name).flatMap fun n =>
        (R.kept [] fs).filter fun f => f.owner = n).map OwnedField.field := by
    rw [allMembers, List.map_flatMap, List.map_flatMap, List.flatMap_map]
    apply List.flatMap_congr
    intro a ha
    rw [List.map_map, ← fields_widen bare fs ha]
    exact List.map_id _
  rw [gathered]
  refine (perm_flatMap_filter (R.widen fs).assets.nodup fun f hf => ?_).map _
  exact mem_names_iff.mpr (schema_widen_asset.mpr (known f (mem_of_mem_kept hf)))

/-- The registry without the fields of its assets. -/
def stripped (R : Registry) : Registry :=
  { R with assets := R.assets.map (fun a => { a with fields := .empty }) fun _ => rfl }

/-- Without its fields the registry is what it was. -/
theorem stripped_widen (bare : R.Fieldless) (fs : List OwnedField) : (R.widen fs).stripped = R := by
  apply with_assets_congr (u := R.assets)
  change (R.assets.entries.map _).map _ = _
  rw [List.map_map]
  refine (List.map_congr_left fun a ha => ?_).trans (List.map_id _)
  change { a with fields := Table.empty } = a
  rw [← bare a ha]

/-! ### The ends of associations that are declared -/

/-- The associations between declared assets. -/
def joined (R : Registry) (as : List Association) : List Association :=
  as.filter fun a => R.hasAsset a.leftAsset.name && R.hasAsset a.rightAsset.name

/-- The ends of these associations, in order. -/
def joinedEnds (R : Registry) (as : List Association) : List OwnedField :=
  (R.joined as).flatMap Association.ends

/-- The references of associations to assets that are not declared. -/
def undeclaredEnds (R : Registry) (as : List Association) : List Ident :=
  (as.flatMap fun a => [a.leftAsset, a.rightAsset]).filter fun i => !R.hasAsset i.name

theorem placeable_map_ofAssociation (R : Registry) (as : List Association) :
    R.placeable (as.map .ofAssociation) = R.joinedEnds as := by
  rw [placeable, List.filter_map, List.flatMap_map]
  rfl

/-- Association by association, the left end first. -/
theorem flatMap_undefinedEnds (R : Registry) (as : List Association) :
    (as.map AssociationEntry.ofAssociation).flatMap (·.undefinedEnds R) =
      (R.undeclaredEnds as).map fun i => .undefinedAsset i.name i.span := by
  rw [undeclaredEnds, List.filter_flatMap, List.map_flatMap, List.flatMap_map]
  apply List.flatMap_congr
  intro a _
  change [a.leftAsset, a.rightAsset].filterMap _ = _
  cases hl : R.hasAsset a.leftAsset.name <;> cases hr : R.hasAsset a.rightAsset.name <;>
    simp [hl, hr]

/-- An association with both ends declared gives two fields. -/
theorem length_joinedEnds (R : Registry) (as : List Association) :
    (R.joinedEnds as).length = 2 * (R.joined as).length := by
  rw [joinedEnds]
  induction R.joined as with
  | nil => rfl
  | cons a as ih =>
      rw [List.flatMap_cons, List.length_append, ih, List.length_cons, Association.ends]
      simp
      omega

/-- The associations `as` on top of a registry `R` without fields make the registry `Q` and the
errors `es`. -/
structure EndsPlaced (R : Registry) (as : List Association) (Q : Registry)
    (es : List SemanticError) : Prop where
  /-- Only fields are added. -/
  rest : Q.stripped = R
  /-- The fields of an asset are its ends that are not refused, in order. -/
  fields : ∀ a ∈ Q.assets.entries, a.fields.entries =
    ((R.kept [] (R.joinedEnds as)).filter fun f => f.owner = a.name).map OwnedField.field
  /-- Each reference to an asset that is not declared is one error. -/
  undeclared : es.filter SemanticError.isUndefinedAsset =
    (R.undeclaredEnds as).map fun i => .undefinedAsset i.name i.span
  /-- Each end that is refused is one error, and there are no others. -/
  refused : es.filter (fun e => !e.isUndefinedAsset) = R.refusals [] (R.joinedEnds as)
  reasons : ∀ f e, (f, some e) ∈ R.judged [] (R.joinedEnds as) → Q.Refuses f e
  /-- Each association between declared assets has two ends, which are fields or refused. -/
  count : 2 * (R.joined as).length =
    (Q.allMembers AssetEntry.fields).length + (es.filter fun e => !e.isUndefinedAsset).length
  apart : ∀ n x f s, Q.MemberAt AssetEntry.fields n x f → ¬ Q.MemberAt AssetEntry.steps n x s
  registered : ∀ n x f, Q.MemberAt AssetEntry.fields n x f → Q.schema.asset f.target

/-- All of it for a registry without fields, which is what declaring leaves. -/
theorem endsPlaced_withFields {as : List Association} (bare : R.Fieldless)
    (all : R.associations = as.map .ofAssociation) :
    R.EndsPlaced as R.withFields.1 R.withFields.2 := by
  obtain ⟨undeclared, refused⟩ := filter_placeAssociations bare [] (as.map .ofAssociation)
  rw [widen_nil, placeable_map_ofAssociation] at refused
  rw [widen_nil, flatMap_undefinedEnds] at undeclared
  have known : ∀ f ∈ R.joinedEnds as,
      R.schema.asset f.owner ∧ R.schema.asset f.field.target := by
    intro f hf
    rw [← placeable_map_ofAssociation] at hf
    exact asset_target_of_mem_placeable hf
  have owners := fun f hf => (known f hf).1
  rw [withFields, all, placeAssociations_fst, placeable_map_ofAssociation]
  constructor
  case rest => exact stripped_widen bare _
  case fields => exact fun a ha => fields_widen bare _ ha
  case undeclared => exact undeclared
  case refused => exact refused
  case reasons => exact fun f e h => refuses_of_mem_judged bare owners h
  case count =>
    rw [refused, ← length_joinedEnds, ← length_kept_add_length_refusals R []]
    have fields := (perm_allMembers_widen bare owners).length_eq
    rw [List.length_map, List.length_map] at fields
    rw [fields]
  case apart =>
    intro n x f s hf hs
    rw [memberAt_steps_widen] at hs
    rw [((memberAt_fields_widen bare).mp hf).2.1] at hs
    cases hs
  case registered =>
    intro n x g hg
    obtain ⟨_, _, found⟩ := (memberAt_fields_widen bare).mp hg
    obtain ⟨f, hf, rfl⟩ := Option.map_eq_some_iff.mp found
    exact schema_widen_asset.mpr (known f (List.mem_of_find?_eq_some hf)).2

end Registry

/-- Whatever files a new analyzer has taken in, the ends of the associations it has met become
fields or are refused. -/
theorem Analyzer.endsPlaced_run (fs : List Feed) :
    let R := (empty.run fs).declared.registry
    R.EndsPlaced (associations (empty.entities fs)) R.withFields.1 R.withFields.2 := by
  rw [declared_run_empty]
  exact Registry.endsPlaced_withFields (fun a ha => (Declared.fresh_of_mem ha).fields)
    (Declared.associations_of _)

end MetaAttack
