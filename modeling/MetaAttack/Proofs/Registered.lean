import MetaAttack.Proofs.Fields
import MetaAttack.Proofs.Inheritance
import MetaAttack.Proofs.Intake
import MetaAttack.Proofs.WellFormed

/-!
# The registry of a specification

Where no name is declared twice, the registry holds every declaration as its own entry. Where the
fields can be placed too, the facts of the registry are those of the declarations.
-/

namespace MetaAttack

variable {es : List Entity} {n y : String}

/-- Entering reports nothing exactly if all names are distinct. -/
theorem errors_of_eq_nil_iff : (Declared.of es).errors = [] ↔ NamesDistinct es := by
  rw [Declared.of, Declared.errors_foldl_enter]
  constructor
  · rintro ⟨_, defines, assets, members⟩
    exact ⟨defines, assets, members⟩
  · rintro ⟨defines, assets, members⟩
    exact ⟨rfl, defines, assets, members⟩

/-- Declaring gives no fields. -/
theorem not_hasField_of (n x : String) : ¬ (Declared.of es).registry.HasField n x := by
  rintro ⟨t, a, ha, f, hf, _⟩
  rw [(Declared.fresh_of_mem (Registry.mem_of_asset? ha)).fields] at hf
  cases hf

namespace AssetEntry

variable {c : String} {a : Asset}

theorem bindings_ofAsset (h : a.Distinct) :
    (ofAsset c a).bindings.entries = a.bindings.map .ofVariable := by
  apply Table.entries_empty_insertAll
  rw [List.map_map]
  exact h.bindings

theorem steps_ofAsset (h : a.Distinct) :
    (ofAsset c a).steps.entries = a.steps.map .ofStep := by
  apply Table.entries_empty_insertAll
  rw [List.map_map]
  exact h.steps

end AssetEntry

namespace NamesDistinct

theorem defines_entries (names : NamesDistinct es) :
    (Declared.of es).registry.defines.entries = (MetaAttack.defines es).map .ofDefine := by
  rw [Declared.of, Declared.defines_foldl_enter]
  apply Table.entries_empty_insertAll
  rw [List.map_map]
  exact names.defines

/-- Where names are distinct, all assets are entered in order. -/
theorem assets_entries (names : NamesDistinct es) :
    (Declared.of es).registry.assets.entries =
      (MetaAttack.assets es).map fun x => .ofAsset x.1 x.2 := by
  rw [Declared.of, Declared.assets_foldl_enter]
  apply Table.entries_empty_insertAll
  rw [List.map_map]
  exact names.assets

/-- A name finds the declaration that bears it. -/
theorem asset?_eq_some_iff (names : NamesDistinct es) {b : AssetEntry} :
    (Declared.of es).registry.asset? n = some b ↔
      ∃ x ∈ MetaAttack.assets es, x.2.name.name = n ∧ .ofAsset x.1 x.2 = b := by
  rw [Registry.asset?, Table.find?_eq_some_iff, names.assets_entries]
  constructor
  · rintro ⟨hb, rfl⟩
    obtain ⟨x, hx, rfl⟩ := List.mem_map.mp hb
    exact ⟨x, hx, rfl, rfl⟩
  · rintro ⟨x, hx, rfl, rfl⟩
    exact ⟨List.mem_map_of_mem hx, rfl⟩

/-- What is entered under a name is the asset that is declared under it. -/
theorem exists_asset?_iff (names : NamesDistinct es) {P : AssetEntry → Prop} :
    (∃ b, (Declared.of es).registry.asset? n = some b ∧ P b) ↔
      ∃ x ∈ MetaAttack.assets es, x.2.name.name = n ∧ P (.ofAsset x.1 x.2) := by
  simp only [names.asset?_eq_some_iff]
  constructor
  · rintro ⟨_, ⟨x, hx, hn, rfl⟩, h⟩
    exact ⟨x, hx, hn, h⟩
  · rintro ⟨x, hx, hn, h⟩
    exact ⟨_, ⟨x, hx, hn, rfl⟩, h⟩

/-! ### The facts of the registry before fields are placed -/

/-- Where names are distinct, the schema of the registry is that of the declarations, part by
part. -/
theorem schema_asset (names : NamesDistinct es) :
    (Declared.of es).registry.schema.asset n ↔ (schemaOf es).asset n := by
  have := names.exists_asset?_iff (n := n) (P := fun _ => True)
  simpa [Registry.schema, schemaOf] using this

theorem schema_parent (names : NamesDistinct es) {p : String} :
    (Declared.of es).registry.schema.parent n p ↔ (schemaOf es).parent n p :=
  names.exists_asset?_iff (P := fun a => ∃ i, a.parent = some i ∧ i.name = p)

theorem schema_binding (names : NamesDistinct es) {e : Expr} :
    (Declared.of es).registry.schema.binding n y e ↔ (schemaOf es).binding n y e := by
  refine (names.exists_asset?_iff
    (P := fun a => ∃ v, a.bindings.find? y = some v ∧ v.expr = e)).trans ?_
  constructor
  · rintro ⟨x, hx, hn, v, hv, he⟩
    obtain ⟨hmem, hy⟩ := Table.find?_eq_some_iff.mp hv
    rw [AssetEntry.bindings_ofAsset (names.members x hx)] at hmem
    obtain ⟨w, hw, rfl⟩ := List.mem_map.mp hmem
    exact ⟨x, hx, hn, w, hw, hy, he⟩
  · rintro ⟨x, hx, hn, w, hw, hy, he⟩
    refine ⟨x, hx, hn, .ofVariable w, Table.find?_eq_some_iff.mpr ⟨?_, hy⟩, he⟩
    rw [AssetEntry.bindings_ofAsset (names.members x hx)]
    exact List.mem_map_of_mem hw

/-- The steps of the registry are those declared. -/
theorem stepAt_iff (names : NamesDistinct es) {s : StepEntry} :
    (Declared.of es).registry.StepAt n y s ↔
      ∃ t, DeclaresStep es n t ∧ t.name.name = y ∧ .ofStep t = s := by
  refine (names.exists_asset?_iff (P := fun a => a.steps.find? y = some s)).trans ?_
  constructor
  · rintro ⟨x, hx, hn, hs⟩
    obtain ⟨hmem, hy⟩ := Table.find?_eq_some_iff.mp hs
    rw [AssetEntry.steps_ofAsset (names.members x hx)] at hmem
    obtain ⟨t, ht, rfl⟩ := List.mem_map.mp hmem
    exact ⟨t, ⟨x, hx, hn, ht⟩, hy, rfl⟩
  · rintro ⟨t, ⟨x, hx, hn, ht⟩, hy, rfl⟩
    refine ⟨x, hx, hn, Table.find?_eq_some_iff.mpr ⟨?_, hy⟩⟩
    rw [AssetEntry.steps_ofAsset (names.members x hx)]
    exact List.mem_map_of_mem ht

theorem schema_step (names : NamesDistinct es) :
    (Declared.of es).registry.schema.step n y ↔ (schemaOf es).step n y := by
  rw [Registry.schema_step_iff]
  simp only [names.stepAt_iff]
  constructor
  · rintro ⟨_, t, ht, hy, rfl⟩
    exact ⟨t, ht, hy⟩
  · rintro ⟨t, ht, hy⟩
    exact ⟨_, t, ht, hy, rfl⟩

end NamesDistinct

/-! ### Fields -/

/-- The fields that the associations give to assets, in order. -/
def fieldsOf (es : List Entity) : List OwnedField :=
  (associations es).flatMap fun a => (AssociationEntry.ofAssociation a).ends

/-- The fields that associations give are those of the schema. -/
theorem mem_fieldsOf_iff {t : String} :
    (∃ f ∈ fieldsOf es, f.owner = n ∧ f.field.name = y ∧ f.field.target = t) ↔
      (schemaOf es).field n y t := by
  constructor
  · rintro ⟨f, hf, rfl, rfl, rfl⟩
    obtain ⟨a, ha, hfa⟩ := List.mem_flatMap.mp hf
    rcases AssociationEntry.of_mem_ends hfa with ⟨owner, name, target⟩ | ⟨owner, name, target⟩
    · exact ⟨a, ha, .inl ⟨owner.symm, name.symm, target.symm⟩⟩
    · exact ⟨a, ha, .inr ⟨owner.symm, name.symm, target.symm⟩⟩
  · rintro ⟨a, ha, ⟨rfl, rfl, rfl⟩ | ⟨rfl, rfl, rfl⟩⟩
    · exact ⟨_, List.mem_flatMap.mpr ⟨a, ha, List.mem_cons_self⟩, rfl, rfl, rfl⟩
    · exact ⟨_, List.mem_flatMap.mpr ⟨a, ha, List.mem_cons_of_mem _ List.mem_cons_self⟩, rfl, rfl,
        rfl⟩

theorem keys_fieldsOf (es : List Entity) :
    (fieldsOf es).map OwnedField.key = (associations es).flatMap Association.fieldKeys := by
  rw [fieldsOf, List.map_flatMap]
  rfl

theorem ends_associations_of (es : List Entity) :
    (Declared.of es).registry.associations.flatMap AssociationEntry.ends = fieldsOf es := by
  rw [Declared.associations_of, List.flatMap_map]
  rfl

/-- The placement finds no error exactly if the fields can be placed. -/
theorem withFields_of_errors (names : NamesDistinct es) :
    (Declared.of es).registry.withFields.2 = [] ↔ FieldsPlaced es := by
  rw [Registry.withFields_errors not_hasField_of, ends_associations_of, keys_fieldsOf,
    Declared.associations_of]
  have ends : (∀ a ∈ (associations es).map AssociationEntry.ofAssociation,
        (Declared.of es).registry.schema.asset a.left.name ∧
          (Declared.of es).registry.schema.asset a.right.name) ↔
      ∀ a ∈ associations es,
        (schemaOf es).asset a.leftAsset.name ∧ (schemaOf es).asset a.rightAsset.name := by
    simp [AssociationEntry.ofAssociation, names.schema_asset]
  have notStep : (∀ f ∈ fieldsOf es, ¬ (Declared.of es).registry.schema.step f.owner f.field.name) ↔
      ∀ n x t, (schemaOf es).field n x t → ¬ (schemaOf es).step n x := by
    simp only [names.schema_step, ← mem_fieldsOf_iff]
    constructor
    · rintro h n x t ⟨f, hf, rfl, rfl, _⟩
      exact h f hf
    · exact fun h f hf => h f.owner f.field.name f.field.target ⟨f, hf, rfl, rfl, rfl⟩
  rw [ends, notStep]
  constructor
  · rintro ⟨ends, notStep, distinct⟩
    exact ⟨ends, distinct, notStep⟩
  · rintro ⟨ends, distinct, notStep⟩
    exact ⟨ends, notStep, distinct⟩

namespace FieldsPlaced

/-- Where the fields can be placed, all of them are. -/
theorem withFields_fst (names : NamesDistinct es) (placed : FieldsPlaced es) :
    (Declared.of es).registry.withFields.1 = (Declared.of es).registry.widen (fieldsOf es) := by
  rw [Registry.withFields_fst, Registry.placeable, List.filter_eq_self.mpr, ends_associations_of]
  intro a ha
  rw [Declared.associations_of] at ha
  obtain ⟨b, hb, rfl⟩ := List.mem_map.mp ha
  obtain ⟨left, right⟩ := placed.ends b hb
  rw [Bool.and_eq_true, Registry.hasAsset_iff, Registry.hasAsset_iff]
  exact ⟨names.schema_asset.mpr left, names.schema_asset.mpr right⟩

/-- Each asset has all the fields that associations give to it. -/
theorem entries_widen (names : NamesDistinct es) (placed : FieldsPlaced es) {a : AssetEntry}
    (ha : (Declared.of es).registry.asset? n = some a) :
    (a.widen (fieldsOf es)).fields.entries =
      ((fieldsOf es).filter fun f => f.owner = a.name).map OwnedField.field := by
  apply AssetEntry.fields_widen (Declared.fresh_of_mem (Registry.mem_of_asset? ha)).fields
  · intro f hf owner
    cases hs : a.steps.find? f.field.name with
    | none => rfl
    | some s =>
        have step : (Declared.of es).registry.schema.step f.owner f.field.name := by
          rw [owner, Registry.name_of_asset? ha]
          exact ⟨a, ha, s, hs⟩
        exact absurd (names.schema_step.mp step)
          (placed.notStep _ _ _ (mem_fieldsOf_iff.mp ⟨f, hf, rfl, rfl, rfl⟩))
  · rw [keys_fieldsOf]
    exact placed.distinct

/-- The registry has the declared fields once they are placed. -/
theorem schema_field (names : NamesDistinct es) (placed : FieldsPlaced es) {t : String} :
    ((Declared.of es).registry.widen (fieldsOf es)).schema.field n y t ↔
      (schemaOf es).field n y t := by
  constructor
  · intro h
    rcases Registry.schema_widen_field h with old | new
    · exact absurd ⟨t, old⟩ (not_hasField_of n y)
    · exact mem_fieldsOf_iff.mp new
  · intro h
    have known : (schemaOf es).asset n := by
      obtain ⟨a, ha, ⟨rfl, _, _⟩ | ⟨rfl, _, _⟩⟩ := h
      · exact (placed.ends a ha).1
      · exact (placed.ends a ha).2
    obtain ⟨a, ha⟩ := names.schema_asset.mpr known
    obtain ⟨f, hf, owner, rfl, rfl⟩ := mem_fieldsOf_iff.mpr h
    refine Registry.exists_asset?_widen.mpr ⟨a, ha, f.field, ?_, rfl⟩
    refine Table.find?_eq_some_iff.mpr ⟨?_, rfl⟩
    rw [placed.entries_widen names ha]
    refine List.mem_map_of_mem (List.mem_filter.mpr ⟨hf, ?_⟩)
    simpa using owner.trans (Registry.name_of_asset? ha).symm

/-- The facts of the registry are those of the declarations. -/
theorem schema_withFields (names : NamesDistinct es) (placed : FieldsPlaced es) :
    (Declared.of es).registry.withFields.1.schema = schemaOf es := by
  rw [placed.withFields_fst names]
  ext n y t
  · rw [Registry.schema_widen_asset, names.schema_asset]
  · rw [Registry.schema_widen_parent, names.schema_parent]
  · exact placed.schema_field names
  · rw [Registry.schema_widen_binding, names.schema_binding]
  · rw [Registry.schema_widen_step, names.schema_step]

/-- The schema of sound declarations is coherent. -/
theorem coherent (names : NamesDistinct es) (placed : FieldsPlaced es) :
    (schemaOf es).Coherent := by
  rw [← placed.schema_withFields names]
  exact Registry.schema_coherent _

end FieldsPlaced

end MetaAttack
