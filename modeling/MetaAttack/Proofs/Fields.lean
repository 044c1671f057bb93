import Mathlib.Data.List.Nodup
import MetaAttack.Check.Fields
import MetaAttack.Proofs.Chain
import MetaAttack.Proofs.Tables

/-!
# Placing fields

Placing the ends of associations widens the assets of a registry by fields and changes nothing else.
The fields that an asset gets are given in closed form, whether or not some of them stand in each
other's way, and the placement finds no error exactly if none of them do.
-/

namespace MetaAttack

/-- What must not repeat: an asset with the name of a field of it. -/
def OwnedField.key (f : OwnedField) : String × String := (f.owner, f.field.name)

/-- Each end leads from one asset of the association to the other. -/
theorem AssociationEntry.of_mem_ends {a : AssociationEntry} {f : OwnedField} (h : f ∈ a.ends) :
    (f.owner = a.left.name ∧ f.field.name = a.rightField ∧ f.field.target = a.right.name) ∨
      (f.owner = a.right.name ∧ f.field.name = a.leftField ∧ f.field.target = a.left.name) := by
  rcases List.mem_cons.mp h with rfl | h
  · exact .inl ⟨rfl, rfl, rfl⟩
  · obtain rfl := List.mem_singleton.mp h
    exact .inr ⟨rfl, rfl, rfl⟩

/-- The fields, of those listed, that belong to an asset and that none of its steps stands in the
way of. -/
def AssetEntry.openTo (a : AssetEntry) (fs : List OwnedField) : List FieldEntry :=
  ((fs.filter fun f => f.owner = a.name).map OwnedField.field).filter fun f =>
    (a.steps.find? f.name).isNone

/-- The asset with the first of these fields of each name. -/
def AssetEntry.widen (fs : List OwnedField) (a : AssetEntry) : AssetEntry :=
  { a with fields := a.fields.insertAll (a.openTo fs) }

namespace AssetEntry

variable {a : AssetEntry} {f : OwnedField} {fs gs : List OwnedField}

theorem openTo_append (a : AssetEntry) (fs gs : List OwnedField) :
    a.openTo (fs ++ gs) = a.openTo fs ++ a.openTo gs := by
  simp [openTo]

theorem openTo_singleton_of_open (hn : f.owner = a.name)
    (hs : a.steps.find? f.field.name = none) : a.openTo [f] = [f.field] := by
  simp [openTo, hn, hs]

theorem openTo_singleton_of_not_open (h : f.owner = a.name → a.steps.find? f.field.name ≠ none) :
    a.openTo [f] = [] := by
  by_cases hn : f.owner = a.name
  · simpa [openTo, hn, Option.isSome_iff_ne_none] using h hn
  · simp [openTo, hn]

/-- An asset is open to the fields that are to be its own, unless it has a step of the name. -/
theorem mem_openTo {g : FieldEntry} :
    g ∈ a.openTo fs ↔
      (∃ f ∈ fs, f.owner = a.name ∧ f.field = g) ∧ a.steps.find? g.name = none := by
  simp [openTo, and_assoc]

/-- Fields can be added in two goes. -/
theorem widen_append (a : AssetEntry) (fs gs : List OwnedField) :
    a.widen (fs ++ gs) = (a.widen fs).widen gs := by
  rw [widen, openTo_append, Table.insertAll_append]
  rfl

/-- A field that was there before stays; an added one is found only where it is the first of its
name. -/
theorem find?_fields_widen (a : AssetEntry) (fs : List OwnedField) (x : String) :
    (a.widen fs).fields.find? x =
      (a.fields.find? x).or ((a.openTo fs).find? fun f => f.name = x) :=
  Table.find?_insertAll a.fields (a.openTo fs) x

end AssetEntry

namespace Registry

/-- The registry with all its assets widened. -/
def widen (R : Registry) (fs : List OwnedField) : Registry :=
  { R with assets := R.assets.map (AssetEntry.widen fs) fun _ => rfl }

variable {R : Registry} {f : OwnedField} {fs gs : List OwnedField} {n x t : String}

theorem with_assets_congr {t u : Table AssetEntry} (h : t.entries = u.entries) :
    { R with assets := t } = { R with assets := u } := by
  rw [Table.ext_entries h]

theorem widen_eq_self (h : ∀ a ∈ R.assets.entries, a.widen fs = a) : R.widen fs = R :=
  with_assets_congr (u := R.assets) ((List.map_congr_left h).trans (List.map_id _))

theorem widen_nil (R : Registry) : R.widen [] = R := widen_eq_self fun _ _ => rfl

/-- Adding fields to a registry can be done in two goes, too. -/
theorem widen_append (R : Registry) (fs gs : List OwnedField) :
    R.widen (fs ++ gs) = (R.widen fs).widen gs := by
  apply with_assets_congr
  change R.assets.entries.map _ = (R.assets.entries.map _).map _
  rw [List.map_map]
  exact List.map_congr_left fun a _ => a.widen_append fs gs

/-- An asset is found as before, with what it gets. -/
theorem asset?_widen (R : Registry) (fs : List OwnedField) (n : String) :
    (R.widen fs).asset? n = (R.asset? n).map (AssetEntry.widen fs) :=
  Table.find?_map R.assets (AssetEntry.widen fs) (fun _ => rfl) n

/-- No asset comes or goes. -/
theorem hasAsset_widen (R : Registry) (fs : List OwnedField) (n : String) :
    (R.widen fs).hasAsset n = R.hasAsset n := by
  change ((R.widen fs).asset? n).isSome = (R.asset? n).isSome
  rw [asset?_widen, Option.isSome_map]

/-! ### Placing is widening -/

/-- A field that an asset is not open to changes nothing. -/
theorem widen_singleton_of_not_open {a : AssetEntry}
    (h : f.owner = a.name → a.steps.find? f.field.name ≠ none) : a.widen [f] = a := by
  rw [AssetEntry.widen, AssetEntry.openTo_singleton_of_not_open h]
  rfl

theorem widen_singleton_of_other {b : AssetEntry} (h : b.name ≠ f.owner) : b.widen [f] = b :=
  widen_singleton_of_not_open fun owner => absurd owner.symm h

/-- A field changes nothing where it does not change the asset that it belongs to. -/
theorem widen_singleton_eq_self (h : ∀ a, R.asset? f.owner = some a → a.widen [f] = a) :
    R.widen [f] = R := by
  apply widen_eq_self
  intro b hb
  by_cases hn : b.name = f.owner
  · exact h b (hn ▸ asset?_name_of_mem hb)
  · exact widen_singleton_of_other hn

/-- A field is added to the asset that it belongs to. -/
theorem modifyAsset_eq_widen_singleton
    (h : ∀ a, R.asset? f.owner = some a → a.addField f.field = a.widen [f]) :
    R.modifyAsset f.owner (fun a => a.addField f.field) (fun _ => rfl) = R.widen [f] := by
  apply with_assets_congr
  apply List.map_congr_left
  intro b hb
  change (if b.name = f.owner then b.addField f.field else b) = b.widen [f]
  by_cases hn : b.name = f.owner
  · rw [if_pos hn, h b (hn ▸ asset?_name_of_mem hb)]
  · rw [if_neg hn, widen_singleton_of_other hn]

/-- Whatever placing a field reports, the registry is the widened one. -/
theorem placeField_fst (R : Registry) (f : OwnedField) : (R.placeField f).1 = R.widen [f] := by
  rw [placeField]
  split
  · next hnone =>
    refine (widen_singleton_eq_self fun b hb => ?_).symm
    rw [hnone] at hb
    cases hb
  · next a ha =>
    have owner : f.owner = a.name := (name_of_asset? ha).symm
    split
    · next s hs =>
      refine (widen_singleton_eq_self fun b hb => ?_).symm
      obtain rfl := Option.some.inj (ha.symm.trans hb)
      exact widen_singleton_of_not_open fun _ => by simp [hs]
    · next hs =>
      have opened := AssetEntry.openTo_singleton_of_open owner hs
      split
      · next prior hf =>
        refine (widen_singleton_eq_self fun b hb => ?_).symm
        obtain rfl := Option.some.inj (ha.symm.trans hb)
        rw [AssetEntry.widen, opened, Table.insertAll, List.foldl_cons,
          Table.insert_of_find?_some hf]
        rfl
      · apply modifyAsset_eq_widen_singleton
        intro b hb
        obtain rfl := Option.some.inj (ha.symm.trans hb)
        rw [AssetEntry.widen, opened]
        rfl

theorem placeFields_cons (R : Registry) (f : OwnedField) (fs : List OwnedField) :
    (R.placeFields (f :: fs)) =
      (((R.widen [f]).placeFields fs).1,
        (R.placeField f).2 ++ ((R.widen [f]).placeFields fs).2) := by
  rw [← placeField_fst]
  rfl

/-- Placing fields widens the registry by them, whatever is reported. -/
theorem placeFields_fst (R : Registry) (fs : List OwnedField) :
    (R.placeFields fs).1 = R.widen fs := by
  induction fs generalizing R with
  | nil => exact R.widen_nil.symm
  | cons f fs ih => rw [placeFields_cons, ih, ← widen_append, List.singleton_append]

/-- Fields can be placed in two goes, the second one on what the first one has left. -/
theorem placeFields_append (R : Registry) (fs gs : List OwnedField) :
    R.placeFields (fs ++ gs) =
      (((R.widen fs).placeFields gs).1,
        (R.placeFields fs).2 ++ ((R.widen fs).placeFields gs).2) := by
  induction fs generalizing R with
  | nil => rw [widen_nil]; rfl
  | cons f fs ih =>
      rw [List.cons_append, placeFields_cons, ih, placeFields_cons, ← widen_append,
        List.singleton_append, List.append_assoc]

/-- The ends of those associations whose assets are both declared. -/
def placeable (R : Registry) (as : List AssociationEntry) : List OwnedField :=
  (as.filter fun a => R.hasAsset a.left.name && R.hasAsset a.right.name).flatMap
    AssociationEntry.ends

theorem undefinedEnds_eq_nil_iff {a : AssociationEntry} :
    a.undefinedEnds R = [] ↔ (R.hasAsset a.left.name && R.hasAsset a.right.name) = true := by
  rw [AssociationEntry.undefinedEnds]
  cases hl : R.hasAsset a.left.name <;> cases hr : R.hasAsset a.right.name <;> simp [hl, hr]

/-- What can be placed does not depend on what was placed. -/
theorem placeable_widen (R : Registry) (fs : List OwnedField) (as : List AssociationEntry) :
    (R.widen fs).placeable as = R.placeable as := by
  simp only [placeable, hasAsset_widen]

theorem placeable_cons_of_declared {a : AssociationEntry} {as : List AssociationEntry}
    (h : a.undefinedEnds R = []) : R.placeable (a :: as) = a.ends ++ R.placeable as := by
  rw [undefinedEnds_eq_nil_iff] at h
  simp only [placeable, List.filter_cons, h, if_true, List.flatMap_cons]

theorem placeable_cons_of_undeclared {a : AssociationEntry} {as : List AssociationEntry}
    (h : a.undefinedEnds R ≠ []) : R.placeable (a :: as) = R.placeable as := by
  rw [ne_eq, undefinedEnds_eq_nil_iff] at h
  simp only [placeable, List.filter_cons, h]
  rfl

theorem placeAssociations_cons_of_declared {a : AssociationEntry} {as : List AssociationEntry}
    (h : a.undefinedEnds R = []) :
    R.placeAssociations (a :: as) =
      (((R.widen a.ends).placeAssociations as).1,
        (R.placeFields a.ends).2 ++ ((R.widen a.ends).placeAssociations as).2) := by
  rw [← placeFields_fst, placeAssociations, h]

/-- An association with an end that is not declared is reported and gives no field. -/
theorem placeAssociations_cons_of_undeclared {a : AssociationEntry} {as : List AssociationEntry}
    (h : a.undefinedEnds R ≠ []) :
    R.placeAssociations (a :: as) =
      ((R.placeAssociations as).1, a.undefinedEnds R ++ (R.placeAssociations as).2) := by
  obtain ⟨e, es, hes⟩ := List.exists_cons_of_ne_nil h
  rw [placeAssociations, hes]

/-- Placing associations adds all fields that can be placed. -/
theorem placeAssociations_fst (R : Registry) (as : List AssociationEntry) :
    (R.placeAssociations as).1 = R.widen (R.placeable as) := by
  induction as generalizing R with
  | nil => exact R.widen_nil.symm
  | cons a as ih =>
      by_cases h : a.undefinedEnds R = []
      · rw [placeAssociations_cons_of_declared h, ih, placeable_widen, ← widen_append,
          placeable_cons_of_declared h]
      · rw [placeAssociations_cons_of_undeclared h, ih, placeable_cons_of_undeclared h]

/-- The registry with its fields is the registry, widened by the ends of its associations. -/
theorem withFields_fst (R : Registry) : R.withFields.1 = R.widen (R.placeable R.associations) :=
  R.placeAssociations_fst R.associations

/-! ### The facts of a widened registry -/

theorem schema_widen_asset : (R.widen fs).schema.asset n ↔ R.schema.asset n := by
  rw [← hasAsset_iff, ← hasAsset_iff, hasAsset_widen]

theorem exists_asset?_widen {P : AssetEntry → Prop} :
    (∃ a, (R.widen fs).asset? n = some a ∧ P a) ↔
      ∃ a, R.asset? n = some a ∧ P (a.widen fs) :=
  exists_asset?_of_map (R.asset?_widen fs n)

theorem schema_widen_parent {p : String} :
    (R.widen fs).schema.parent n p ↔ R.schema.parent n p :=
  exists_asset?_widen (P := fun a => ∃ i, a.parent = some i ∧ i.name = p)

/-- Fields change nothing about parents, variables and steps. -/
theorem schema_widen_binding {e : Expr} :
    (R.widen fs).schema.binding n x e ↔ R.schema.binding n x e :=
  exists_asset?_widen (P := fun a => ∃ v, a.bindings.find? x = some v ∧ v.expr = e)

theorem schema_widen_step : (R.widen fs).schema.step n x ↔ R.schema.step n x :=
  exists_asset?_widen (P := fun a => ∃ s, a.steps.find? x = some s)

/-- A field is one that was there, or one of those placed. -/
theorem schema_widen_field (h : (R.widen fs).schema.field n x t) :
    R.schema.field n x t ∨ ∃ f ∈ fs, f.owner = n ∧ f.field.name = x ∧ f.field.target = t := by
  obtain ⟨a, ha, g, hg, rfl⟩ := exists_asset?_widen.mp h
  rw [AssetEntry.find?_fields_widen, Option.or_eq_some_iff] at hg
  rcases hg with old | ⟨_, new⟩
  · exact .inl ⟨a, ha, g, old, rfl⟩
  · obtain ⟨⟨f, hf, owner, rfl⟩, _⟩ := AssetEntry.mem_openTo.mp (List.mem_of_find?_eq_some new)
    exact .inr ⟨f, hf, owner.trans (name_of_asset? ha), by simpa using List.find?_some new, rfl⟩

/-- The fields of associations lead to declared assets. -/
theorem asset_target_of_mem_placeable {as : List AssociationEntry} (h : f ∈ R.placeable as) :
    R.schema.asset f.owner ∧ R.schema.asset f.field.target := by
  obtain ⟨a, ha, hf⟩ := List.mem_flatMap.mp h
  obtain ⟨_, declared⟩ := List.mem_filter.mp ha
  rw [Bool.and_eq_true, hasAsset_iff, hasAsset_iff] at declared
  rcases AssociationEntry.of_mem_ends hf with ⟨owner, _, target⟩ | ⟨owner, _, target⟩
  · rw [owner, target]
    exact declared
  · rw [owner, target]
    exact declared.symm

/-! ### Errors of the placement -/

/-- The asset has a field of the name. -/
def HasField (R : Registry) (n x : String) : Prop := ∃ t, R.schema.field n x t

/-- A field is placed without an error exactly if its name is free. -/
theorem placeField_errors (known : R.schema.asset f.owner) :
    (R.placeField f).2 = [] ↔
      ¬ R.schema.step f.owner f.field.name ∧ ¬ R.HasField f.owner f.field.name := by
  obtain ⟨a, ha⟩ := known
  have step : R.schema.step f.owner f.field.name ↔ (a.steps.find? f.field.name).isSome := by
    simp [schema, ha, Option.isSome_iff_exists]
  have field : R.HasField f.owner f.field.name ↔ (a.fields.find? f.field.name).isSome := by
    rw [Option.isSome_iff_exists]
    constructor
    · rintro ⟨_, b, hb, g, hg, _⟩
      obtain rfl : a = b := Option.some.inj (ha.symm.trans hb)
      exact ⟨g, hg⟩
    · rintro ⟨g, hg⟩
      exact ⟨g.target, a, ha, g, hg, rfl⟩
  rw [step, field, placeField, ha]
  dsimp only
  cases a.steps.find? f.field.name with
  | some s => simp
  | none => cases a.fields.find? f.field.name <;> simp

/-- A field that can be placed is the only one that comes to be. -/
theorem hasField_widen_singleton (known : R.schema.asset f.owner)
    (opened : ¬ R.schema.step f.owner f.field.name) :
    (R.widen [f]).HasField n x ↔ R.HasField n x ∨ f.key = (n, x) := by
  constructor
  · rintro ⟨t, h⟩
    rcases schema_widen_field h with old | ⟨g, hg, rfl, rfl, _⟩
    · exact .inl ⟨t, old⟩
    · obtain rfl := List.mem_singleton.mp hg
      exact .inr rfl
  · rintro (⟨t, a, ha, g, hg, _⟩ | h)
    · refine ⟨g.target, exists_asset?_widen.mpr ⟨a, ha, g, ?_, rfl⟩⟩
      rw [AssetEntry.find?_fields_widen, hg, Option.some_or]
    · obtain ⟨rfl, rfl⟩ := Prod.mk.inj h
      obtain ⟨a, ha⟩ := known
      have free : a.steps.find? f.field.name = none := by
        cases hs : a.steps.find? f.field.name with
        | none => rfl
        | some s => exact absurd ⟨a, ha, s, hs⟩ opened
      have found : ((a.widen [f]).fields.find? f.field.name).isSome := by
        rw [AssetEntry.find?_fields_widen,
          AssetEntry.openTo_singleton_of_open (name_of_asset? ha).symm free]
        simp
      obtain ⟨g, hg⟩ := Option.isSome_iff_exists.mp found
      exact ⟨g.target, exists_asset?_widen.mpr ⟨a, ha, g, hg, rfl⟩⟩

/-- Fields of declared assets are placed without an error exactly if no step or field stands in
their way and none is listed twice. -/
theorem placeFields_errors (known : ∀ f ∈ fs, R.schema.asset f.owner) :
    (R.placeFields fs).2 = [] ↔
      (∀ f ∈ fs, ¬ R.schema.step f.owner f.field.name) ∧
        (∀ f ∈ fs, ¬ R.HasField f.owner f.field.name) ∧ (fs.map OwnedField.key).Nodup := by
  induction fs generalizing R with
  | nil => simp [placeFields]
  | cons f fs ih =>
      obtain ⟨hf, hfs⟩ := List.forall_mem_cons.mp known
      have rest := ih (R := R.widen [f]) fun g hg => schema_widen_asset.mpr (hfs g hg)
      simp only [schema_widen_step] at rest
      rw [placeFields_cons, List.append_eq_nil_iff, placeField_errors hf, rest,
        List.forall_mem_cons, List.forall_mem_cons, List.map_cons, List.nodup_cons]
      constructor
      · rintro ⟨⟨opened, free⟩, openeds, frees, nodup⟩
        refine ⟨⟨opened, openeds⟩, ⟨free, fun g hg old => ?_⟩, fun hmem => ?_, nodup⟩
        · exact frees g hg ((hasField_widen_singleton hf opened).mpr (.inl old))
        · obtain ⟨g, hg, same⟩ := List.mem_map.mp hmem
          exact frees g hg ((hasField_widen_singleton hf opened).mpr (.inr same.symm))
      · rintro ⟨⟨opened, openeds⟩, ⟨free, frees⟩, fresh, nodup⟩
        refine ⟨⟨opened, free⟩, openeds, fun g hg has => ?_, nodup⟩
        rcases (hasField_widen_singleton hf opened).mp has with old | same
        · exact frees g hg old
        · exact fresh (List.mem_map.mpr ⟨g, hg, same.symm⟩)

/-- Associations between declared assets are placed end by end. -/
theorem placeAssociations_of_declared {as : List AssociationEntry}
    (h : ∀ a ∈ as, a.undefinedEnds R = []) :
    R.placeAssociations as = R.placeFields (as.flatMap AssociationEntry.ends) := by
  induction as generalizing R with
  | nil => rfl
  | cons a as ih =>
      obtain ⟨ha, has⟩ := List.forall_mem_cons.mp h
      have has' : ∀ b ∈ as, b.undefinedEnds (R.widen a.ends) = [] := by
        intro b hb
        rw [undefinedEnds_eq_nil_iff, hasAsset_widen, hasAsset_widen, ← undefinedEnds_eq_nil_iff]
        exact has b hb
      rw [placeAssociations_cons_of_declared ha, ih has', List.flatMap_cons, placeFields_append]

/-- Where placing reports nothing, all ends are declared. -/
theorem undefinedEnds_of_placeAssociations {as : List AssociationEntry}
    (h : (R.placeAssociations as).2 = []) : ∀ a ∈ as, a.undefinedEnds R = [] := by
  induction as generalizing R with
  | nil => simp
  | cons a as ih =>
      by_cases ha : a.undefinedEnds R = []
      · rw [placeAssociations_cons_of_declared ha, List.append_eq_nil_iff] at h
        refine List.forall_mem_cons.mpr ⟨ha, fun b hb => ?_⟩
        have := ih h.2 b hb
        rwa [undefinedEnds_eq_nil_iff, hasAsset_widen, hasAsset_widen,
          ← undefinedEnds_eq_nil_iff] at this
      · rw [placeAssociations_cons_of_undeclared ha, List.append_eq_nil_iff] at h
        exact absurd h.1 ha

/-- In terms of the schema: both ends are assets. -/
theorem undefinedEnds_eq_nil_iff_asset {a : AssociationEntry} :
    a.undefinedEnds R = [] ↔ R.schema.asset a.left.name ∧ R.schema.asset a.right.name := by
  rw [undefinedEnds_eq_nil_iff, Bool.and_eq_true, hasAsset_iff, hasAsset_iff]

/-- In a registry without fields, associations are placed without an error exactly if they stand
between declared assets, no step has the name of one of their fields, and none of these repeats. -/
theorem withFields_errors (bare : ∀ n x, ¬ R.HasField n x) :
    R.withFields.2 = [] ↔
      (∀ a ∈ R.associations, R.schema.asset a.left.name ∧ R.schema.asset a.right.name) ∧
        (∀ f ∈ R.associations.flatMap AssociationEntry.ends,
          ¬ R.schema.step f.owner f.field.name) ∧
        ((R.associations.flatMap AssociationEntry.ends).map OwnedField.key).Nodup := by
  have owners : (∀ a ∈ R.associations, R.schema.asset a.left.name ∧ R.schema.asset a.right.name) →
      ∀ f ∈ R.associations.flatMap AssociationEntry.ends, R.schema.asset f.owner := by
    intro declared f hf
    obtain ⟨a, ha, hfa⟩ := List.mem_flatMap.mp hf
    rcases AssociationEntry.of_mem_ends hfa with ⟨owner, _⟩ | ⟨owner, _⟩
    · rw [owner]
      exact (declared a ha).1
    · rw [owner]
      exact (declared a ha).2
  constructor
  · intro h
    have ends := undefinedEnds_of_placeAssociations h
    have declared := fun a ha => undefinedEnds_eq_nil_iff_asset.mp (ends a ha)
    rw [withFields, placeAssociations_of_declared ends, placeFields_errors (owners declared)] at h
    exact ⟨declared, h.1, h.2.2⟩
  · rintro ⟨declared, opened, nodup⟩
    have ends := fun a ha => undefinedEnds_eq_nil_iff_asset.mpr (declared a ha)
    rw [withFields, placeAssociations_of_declared ends, placeFields_errors (owners declared)]
    exact ⟨opened, fun f _ => bare f.owner f.field.name, nodup⟩

end Registry

/-- Where nothing stands in the way, an asset without fields gets all of those that are its own. -/
theorem AssetEntry.fields_widen {a : AssetEntry} {fs : List OwnedField} (bare : a.fields = .empty)
    (opened : ∀ f ∈ fs, f.owner = a.name → a.steps.find? f.field.name = none)
    (nodup : (fs.map OwnedField.key).Nodup) :
    (a.widen fs).fields.entries = (fs.filter fun f => f.owner = a.name).map OwnedField.field := by
  have all : a.openTo fs = (fs.filter fun f => f.owner = a.name).map OwnedField.field := by
    apply List.filter_eq_self.mpr
    intro g hg
    obtain ⟨f, hf, rfl⟩ := List.mem_map.mp hg
    obtain ⟨hf, owner⟩ := List.mem_filter.mp hf
    simpa using opened f hf (by simpa using owner)
  have keys : (((fs.filter fun f => f.owner = a.name).map OwnedField.field).map
      Keyed.key).Nodup := by
    apply List.Nodup.of_map (Prod.mk a.name)
    rw [List.map_map, List.map_map]
    have same : (fs.filter fun f => f.owner = a.name).map OwnedField.key =
        (fs.filter fun f => f.owner = a.name).map
          ((Prod.mk a.name ∘ Keyed.key) ∘ OwnedField.field) := by
      apply List.map_congr_left
      intro f hf
      have owner : f.owner = a.name := by simpa using (List.mem_filter.mp hf).2
      exact Prod.ext owner rfl
    rw [← same]
    exact nodup.sublist (List.filter_sublist.map OwnedField.key)
  rw [widen, bare, all]
  exact Table.entries_empty_insertAll keys

end MetaAttack
