import MetaAttack.Analysis.Declare
import MetaAttack.Proofs.Tables

/-!
# Entities

The declarations of a specification fall into entities: defines, categories without their assets,
assets and associations, in one list. Declaring enters them one by one. What the registry then
holds is given in closed form, and no error is found exactly if no name repeats.
-/

namespace MetaAttack

/-- What is entered in one step. -/
inductive Entity
  | define (d : Define)
  | category (name : Ident) (remarks : List Remark) (span : Span)
  | asset (category : String) (a : Asset)
  | association (a : Association)

/-- The entities of a declaration, in order. -/
def Declaration.entities : Declaration → List Entity
  | .define d => [.define d]
  | .category c => .category c.name c.remarks c.span :: c.assets.map (.asset c.name.name)
  | .associations as => as.map .association

/-- Neither two steps nor two variables of the asset have one name. -/
structure Asset.Distinct (a : Asset) : Prop where
  steps : (a.steps.map fun s => s.name.name).Nodup
  bindings : (a.bindings.map fun v => v.name.name).Nodup

namespace Entity

/-- The define, if it is one. -/
def defines : Entity → List Define
  | define d => [d]
  | category .. | asset .. | association _ => []

/-- An asset comes with the name of its category. -/
def assets : Entity → List (String × Asset)
  | asset c a => [(c, a)]
  | define _ | category .. | association _ => []

/-- The association, if it is one. -/
def associations : Entity → List Association
  | association a => [a]
  | define _ | category .. | asset .. => []

/-- The lists of remarks, one for each thing that is declared. -/
def remarkLists : Entity → List (List Remark)
  | define _ => []
  | category _ remarks _ => [remarks]
  | asset _ a => a.remarks :: a.steps.map AttackStep.remarks
  | association a => [a.remarks]

end Entity

/-- All defines, in order. -/
def defines (es : List Entity) : List Define := es.flatMap Entity.defines

/-- All assets with their categories, in order. -/
def assets (es : List Entity) : List (String × Asset) := es.flatMap Entity.assets

/-- All associations, in order. -/
def associations (es : List Entity) : List Association := es.flatMap Entity.associations

/-! ### Entries -/

/-- How a define is entered. -/
def DefineEntry.ofDefine (d : Define) : DefineEntry := ⟨d.key.name, d.value, d.span⟩

/-- The entry of an asset, with the first of the steps and of the variables of each name. -/
def AssetEntry.ofAsset (category : String) (a : Asset) : AssetEntry where
  name := a.name.name
  category := category
  isAbstract := a.isAbstract
  parent := a.parent
  span := a.span
  fields := .empty
  bindings := Table.empty.insertAll (a.bindings.map .ofVariable)
  steps := Table.empty.insertAll (a.steps.map .ofStep)

namespace Draft

variable {d : Draft}

/-- Whether a step is taken or refused, the steps are those that inserting gives: a name that is
taken keeps its entry. -/
theorem entry_addStep (d : Draft) (s : AttackStep) :
    (d.addStep s).entry = d.entry.addStep (.ofStep s) := by
  rw [addStep]
  split
  · next prior h =>
    rw [AssetEntry.addStep, Table.insert_of_find?_some (a := StepEntry.ofStep s) h]
  · rfl

theorem entry_addVariable (d : Draft) (v : Variable) :
    (d.addVariable v).entry = d.entry.addVariable (.ofVariable v) := by
  rw [addVariable]
  split
  · next prior h =>
    rw [AssetEntry.addVariable, Table.insert_of_find?_some (a := VariableEntry.ofVariable v) h]
  · rfl

/-- All steps of an asset in one insertion. -/
theorem entry_foldl_addStep (d : Draft) (ss : List AttackStep) :
    (ss.foldl addStep d).entry =
      { d.entry with steps := d.entry.steps.insertAll (ss.map .ofStep) } := by
  induction ss generalizing d with
  | nil => rfl
  | cons s ss ih =>
      rw [List.foldl_cons, ih, entry_addStep]
      rfl

theorem entry_foldl_addVariable (d : Draft) (vs : List Variable) :
    (vs.foldl addVariable d).entry =
      { d.entry with bindings := d.entry.bindings.insertAll (vs.map .ofVariable) } := by
  induction vs generalizing d with
  | nil => rfl
  | cons v vs ih =>
      rw [List.foldl_cons, ih, entry_addVariable]
      rfl

/-- A draft holds what the asset declares, first entries under each name. -/
theorem entry_ofAsset (category : String) (a : Asset) :
    (ofAsset category a).entry = .ofAsset category a := by
  rw [ofAsset, entry_foldl_addVariable, entry_foldl_addStep]
  rfl

/-- No step is found to repeat exactly if all names are new and distinct. -/
theorem errors_foldl_addStep {ss : List AttackStep} :
    (ss.foldl addStep d).errors = [] ↔
      d.errors = [] ∧
        (d.entry.steps.entries.map Keyed.key ++ ss.map fun s => s.name.name).Nodup := by
  induction ss generalizing d with
  | nil => simp [d.entry.steps.nodup]
  | cons s ss ih =>
      have next := Table.nodup_insert_append_iff (t := d.entry.steps) (a := StepEntry.ofStep s)
        (l := ss.map fun s => s.name.name)
      change _ ↔ d.entry.steps.find? s.name.name = none ∧ _ at next
      rw [List.foldl_cons, ih, entry_addStep, List.map_cons]
      refine Iff.trans ?_ (and_congr_right fun _ => next.symm)
      rw [← and_assoc]
      apply and_congr_left
      intro _
      rw [addStep]
      split <;> simp_all

theorem errors_foldl_addVariable {vs : List Variable} :
    (vs.foldl addVariable d).errors = [] ↔
      d.errors = [] ∧
        (d.entry.bindings.entries.map Keyed.key ++ vs.map fun v => v.name.name).Nodup := by
  induction vs generalizing d with
  | nil => simp [d.entry.bindings.nodup]
  | cons v vs ih =>
      have next := Table.nodup_insert_append_iff (t := d.entry.bindings)
        (a := VariableEntry.ofVariable v) (l := vs.map fun v => v.name.name)
      change _ ↔ d.entry.bindings.find? v.name.name = none ∧ _ at next
      rw [List.foldl_cons, ih, entry_addVariable, List.map_cons]
      refine Iff.trans ?_ (and_congr_right fun _ => next.symm)
      rw [← and_assoc]
      apply and_congr_left
      intro _
      rw [addVariable]
      split <;> simp_all

/-- An asset is put together without an error exactly if no member repeats the name of another one
of its kind. -/
theorem errors_ofAsset {category : String} {a : Asset} :
    (ofAsset category a).errors = [] ↔ a.Distinct := by
  rw [ofAsset, errors_foldl_addVariable, entry_foldl_addStep, errors_foldl_addStep]
  constructor
  · rintro ⟨⟨_, steps⟩, bindings⟩
    exact ⟨steps, bindings⟩
  · rintro ⟨steps, bindings⟩
    exact ⟨⟨rfl, steps⟩, bindings⟩

theorem remarks_foldl_addVariable (d : Draft) (vs : List Variable) :
    (vs.foldl addVariable d).remarks = d.remarks := by
  induction vs generalizing d with
  | nil => rfl
  | cons v vs ih =>
      rw [List.foldl_cons, ih]
      rw [addVariable]
      split <;> rfl

/-- Where no step repeats, the remarks of every step are kept. -/
theorem remarks_foldl_addStep {ss : List AttackStep}
    (h : (d.entry.steps.entries.map Keyed.key ++ ss.map fun s => s.name.name).Nodup) :
    (ss.foldl addStep d).remarks =
      d.remarks ++ ss.map fun s => ⟨.step ⟨d.entry.name, s.name.name⟩, s.remarks⟩ := by
  induction ss generalizing d with
  | nil => simp
  | cons s ss ih =>
      rw [List.map_cons] at h
      obtain ⟨fresh, rest⟩ := (Table.nodup_insert_append_iff (t := d.entry.steps)
        (a := StepEntry.ofStep s)).mp h
      change d.entry.steps.find? s.name.name = none at fresh
      have hstep : d.addStep s = ⟨d.entry.addStep (.ofStep s), d.errors,
          d.remarks ++ [⟨.step ⟨d.entry.name, s.name.name⟩, s.remarks⟩]⟩ := by
        rw [addStep, fresh]
      rw [List.foldl_cons, hstep, ih rest, List.map_cons, List.append_assoc]
      rfl

/-- Remarks are taken down for the asset and then for each step. -/
theorem remarks_ofAsset {category : String} {a : Asset} (h : a.Distinct) :
    (ofAsset category a).remarks =
      ⟨.asset a.name.name, a.remarks⟩ ::
        a.steps.map fun s => ⟨.step ⟨a.name.name, s.name.name⟩, s.remarks⟩ := by
  rw [ofAsset, remarks_foldl_addVariable, remarks_foldl_addStep]
  · rfl
  · exact h.steps

end Draft

/-! ### Entering -/

namespace Declared

/-- Enters one entity. -/
def enter (s : Declared) : Entity → Declared
  | .define d => s.define d
  | .category name remarks span =>
      { s with
        registry := (s.registry.addCategory ⟨name.name, [], span⟩).addRemarks
          ⟨.category name.name, remarks⟩ }
  | .asset c a => s.asset c a
  | .association a => s.association a

/-- Declaring is entering the entities one by one. -/
theorem declare_eq_foldl_enter (s : Declared) (d : Declaration) :
    s.declare d = d.entities.foldl enter s := by
  cases d with
  | define d => rfl
  | category c => exact (List.foldl_map (f := Entity.asset c.name.name) (g := enter)).symm
  | associations as => exact (List.foldl_map (f := Entity.association) (g := enter)).symm

/-- What entities make when entered into nothing. -/
def of (es : List Entity) : Declared := es.foldl enter .empty

/-- Declaring is entering every entity. -/
theorem foldl_declare (s : Declared) (ds : List Declaration) :
    ds.foldl declare s = (ds.flatMap Declaration.entities).foldl enter s := by
  rw [List.foldl_flatMap]
  congr 1
  funext s d
  exact declare_eq_foldl_enter s d

end Declared

namespace Registry

variable {R : Registry} {b : RemarkBlock}

@[simp] theorem defines_addRemarks : (R.addRemarks b).defines = R.defines := by
  rw [addRemarks]
  split <;> rfl

@[simp] theorem assets_addRemarks : (R.addRemarks b).assets = R.assets := by
  rw [addRemarks]
  split <;> rfl

@[simp] theorem associations_addRemarks : (R.addRemarks b).associations = R.associations := by
  rw [addRemarks]
  split <;> rfl

/-- Empty blocks of remarks leave no trace. -/
theorem foldl_addRemarks (R : Registry) (bs : List RemarkBlock) :
    bs.foldl addRemarks R =
      { R with remarks := R.remarks ++ bs.filter fun b => !b.entries.isEmpty } := by
  induction bs generalizing R with
  | nil => simp
  | cons b bs ih =>
      rw [List.foldl_cons, ih, addRemarks]
      cases hb : b.entries.isEmpty <;> simp [hb]

end Registry

namespace Declared

variable {s : Declared}

theorem registry_define (s : Declared) (d : Define) :
    (s.define d).registry = s.registry.addDefine (.ofDefine d) := by
  rw [define]
  split
  · next prior h =>
    rw [Registry.addDefine, Table.insert_of_find?_some (a := DefineEntry.ofDefine d) h]
  · rfl

/-- An asset under a new name is entered with its remarks and all that is wrong in it. -/
theorem asset_of_none {c : String} {a : Asset} (h : s.registry.asset? a.name.name = none) :
    s.asset c a =
      ⟨(Draft.ofAsset c a).remarks.foldl Registry.addRemarks
          ((s.registry.addAsset (.ofAsset c a)).enlist c a.name.name),
        s.errors ++ (Draft.ofAsset c a).errors⟩ := by
  rw [asset]
  rw [h]
  simp only [Draft.entry_ofAsset]

/-- Under a taken name, inserting leaves the assets as they are, and so does declaring. -/
theorem assets_asset (s : Declared) (c : String) (a : Asset) :
    (s.asset c a).registry.assets = s.registry.assets.insert (.ofAsset c a) := by
  cases h : s.registry.asset? a.name.name with
  | some prior =>
      rw [Table.insert_of_find?_some (a := AssetEntry.ofAsset c a) h, asset, h]
  | none =>
      rw [asset_of_none h, Registry.foldl_addRemarks]
      rfl

theorem defines_asset (s : Declared) (c : String) (a : Asset) :
    (s.asset c a).registry.defines = s.registry.defines := by
  cases h : s.registry.asset? a.name.name with
  | some prior => rw [asset, h]
  | none =>
      rw [asset_of_none h, Registry.foldl_addRemarks]
      rfl

theorem associations_asset (s : Declared) (c : String) (a : Asset) :
    (s.asset c a).registry.associations = s.registry.associations := by
  cases h : s.registry.asset? a.name.name with
  | some prior => rw [asset, h]
  | none =>
      rw [asset_of_none h, Registry.foldl_addRemarks]
      rfl

/-- Each entity adds to the table of its kind. -/
theorem defines_enter (s : Declared) (e : Entity) :
    (s.enter e).registry.defines = s.registry.defines.insertAll (e.defines.map .ofDefine) := by
  cases e with
  | define d =>
      rw [enter, registry_define]
      rfl
  | category name remarks span =>
      rw [enter, Registry.defines_addRemarks]
      rfl
  | asset c a =>
      rw [enter, defines_asset]
      rfl
  | association a => exact Registry.defines_addRemarks

theorem assets_enter (s : Declared) (e : Entity) :
    (s.enter e).registry.assets =
      s.registry.assets.insertAll (e.assets.map fun x => .ofAsset x.1 x.2) := by
  cases e with
  | define d =>
      rw [enter, registry_define]
      rfl
  | category name remarks span =>
      rw [enter, Registry.assets_addRemarks]
      rfl
  | asset c a =>
      rw [enter, assets_asset]
      rfl
  | association a => exact Registry.assets_addRemarks

/-- Associations have no keys, so all of them are kept. -/
theorem associations_enter (s : Declared) (e : Entity) :
    (s.enter e).registry.associations =
      s.registry.associations ++ e.associations.map .ofAssociation := by
  cases e with
  | define d =>
      rw [enter, registry_define]
      exact (List.append_nil _).symm
  | category name remarks span =>
      rw [enter, Registry.associations_addRemarks]
      exact (List.append_nil _).symm
  | asset c a =>
      rw [enter, associations_asset]
      exact (List.append_nil _).symm
  | association a =>
      rw [enter, association, Registry.addAssociation, Registry.associations_addRemarks]
      rfl

/-- The registry after entering entities holds the first define of each key. -/
theorem defines_foldl_enter (s : Declared) (es : List Entity) :
    (es.foldl enter s).registry.defines =
      s.registry.defines.insertAll ((defines es).map .ofDefine) := by
  induction es generalizing s with
  | nil => rfl
  | cons e es ih =>
      rw [List.foldl_cons, ih, defines_enter, ← Table.insertAll_append, ← List.map_append]
      rfl

/-- The registry after entering entities holds the first asset of each name. -/
theorem assets_foldl_enter (s : Declared) (es : List Entity) :
    (es.foldl enter s).registry.assets =
      s.registry.assets.insertAll ((assets es).map fun x => .ofAsset x.1 x.2) := by
  induction es generalizing s with
  | nil => rfl
  | cons e es ih =>
      rw [List.foldl_cons, ih, assets_enter, ← Table.insertAll_append, ← List.map_append]
      rfl

theorem associations_foldl_enter (s : Declared) (es : List Entity) :
    (es.foldl enter s).registry.associations =
      s.registry.associations ++ (associations es).map .ofAssociation := by
  induction es generalizing s with
  | nil => exact (List.append_nil _).symm
  | cons e es ih =>
      rw [List.foldl_cons, ih, associations_enter, List.append_assoc, ← List.map_append]
      rfl

/-- The associations of a registry are those declared. -/
theorem associations_of (es : List Entity) :
    (of es).registry.associations = (MetaAttack.associations es).map .ofAssociation :=
  associations_foldl_enter .empty es

/-! ### Errors while entering -/

/-- A define is entered without an error exactly if its key is new. -/
theorem errors_define {d : Define} :
    (s.define d).errors = [] ↔ s.errors = [] ∧ s.registry.defines.find? d.key.name = none := by
  rw [define]
  split <;> simp_all

/-- An asset is entered without an error exactly if its name is new and its members are distinct. -/
theorem errors_asset {c : String} {a : Asset} :
    (s.asset c a).errors = [] ↔
      s.errors = [] ∧ s.registry.assets.find? a.name.name = none ∧ a.Distinct := by
  cases h : s.registry.asset? a.name.name with
  | some prior =>
      change s.registry.assets.find? a.name.name = some prior at h
      simp [asset, Registry.asset?, h]
  | none =>
      rw [asset_of_none h, List.append_eq_nil_iff, Draft.errors_ofAsset]
      change s.registry.assets.find? a.name.name = none at h
      simp [h]

/-- Entering finds no error exactly if no name is taken before or repeats. -/
theorem errors_foldl_enter {es : List Entity} :
    (es.foldl enter s).errors = [] ↔
      s.errors = [] ∧
        (s.registry.defines.entries.map Keyed.key ++
          (defines es).map fun d => d.key.name).Nodup ∧
        (s.registry.assets.entries.map Keyed.key ++
          (assets es).map fun x => x.2.name.name).Nodup ∧
        ∀ x ∈ assets es, x.2.Distinct := by
  induction es generalizing s with
  | nil =>
      simp [defines, assets, s.registry.defines.nodup, s.registry.assets.nodup]
  | cons e es ih =>
      rw [List.foldl_cons, ih, defines_enter, assets_enter]
      -- Entering takes a name from those to come to those that are taken.
      cases e with
      | define d =>
          have next := Table.nodup_insert_append_iff (t := s.registry.defines)
            (a := DefineEntry.ofDefine d) (l := (defines es).map fun d => d.key.name)
          change ((s.define d).errors = [] ∧ _ ∧ _) ↔ s.errors = [] ∧
            (s.registry.defines.entries.map Keyed.key ++
              d.key.name :: (defines es).map fun d => d.key.name).Nodup ∧ _
          rw [errors_define, and_assoc]
          apply and_congr_right
          intro _
          rw [← and_assoc]
          exact and_congr_left' next.symm
      | asset c a =>
          have next : (s.registry.assets.entries.map Keyed.key ++
                a.name.name :: (assets es).map fun x => x.2.name.name).Nodup ↔
              s.registry.assets.find? a.name.name = none ∧
                ((s.registry.assets.insert (.ofAsset c a)).entries.map Keyed.key ++
                  (assets es).map fun x => x.2.name.name).Nodup :=
            Table.nodup_insert_append_iff (a := AssetEntry.ofAsset c a)
          change ((s.asset c a).errors = [] ∧ _ ∧
              ((s.registry.assets.insert (.ofAsset c a)).entries.map Keyed.key ++ _).Nodup ∧ _) ↔
            s.errors = [] ∧ _ ∧ (s.registry.assets.entries.map Keyed.key ++
                a.name.name :: (assets es).map fun x => x.2.name.name).Nodup ∧
              ∀ x ∈ (c, a) :: assets es, x.2.Distinct
          rw [errors_asset, next, List.forall_mem_cons]
          constructor
          · rintro ⟨⟨clean, fresh, distinct⟩, keys, names, rest⟩
            exact ⟨clean, keys, ⟨fresh, names⟩, distinct, rest⟩
          · rintro ⟨clean, keys, ⟨fresh, names⟩, distinct, rest⟩
            exact ⟨⟨clean, fresh, distinct⟩, keys, names, rest⟩
      | category name remarks span => rfl
      | association a => rfl

/-! ### Remarks -/

variable {P : List Remark → Prop}

theorem remarks_addRemarks {R : Registry} {b : RemarkBlock} (nil : P []) :
    (∀ x ∈ (R.addRemarks b).remarks, P x.entries) ↔
      (∀ x ∈ R.remarks, P x.entries) ∧ P b.entries := by
  rw [Registry.addRemarks]
  split
  · next h =>
    have : P b.entries := (List.isEmpty_iff.mp h).symm ▸ nil
    simp [this]
  · simp [or_imp, forall_and]

/-- What holds of an empty block holds of all blocks exactly if it holds of those that are added and
of those before. -/
theorem remarks_foldl_addRemarks {R : Registry} {bs : List RemarkBlock} (nil : P []) :
    (∀ x ∈ (bs.foldl Registry.addRemarks R).remarks, P x.entries) ↔
      (∀ x ∈ R.remarks, P x.entries) ∧ ∀ b ∈ bs, P b.entries := by
  induction bs generalizing R with
  | nil => simp
  | cons b bs ih =>
      rw [List.foldl_cons, ih, remarks_addRemarks nil, List.forall_mem_cons, and_assoc]

/-- Where an entity is entered without an error, all its remarks are taken down. -/
theorem remarks_enter {e : Entity} (nil : P []) (h : (s.enter e).errors = []) :
    (∀ b ∈ (s.enter e).registry.remarks, P b.entries) ↔
      (∀ b ∈ s.registry.remarks, P b.entries) ∧ ∀ rs ∈ e.remarkLists, P rs := by
  cases e with
  | define d =>
      rw [enter, registry_define]
      simp [Entity.remarkLists, Registry.addDefine]
  | category name remarks span =>
      rw [enter, remarks_addRemarks nil]
      simp [Entity.remarkLists, Registry.addCategory]
  | asset c a =>
      obtain ⟨_, fresh, distinct⟩ := errors_asset.mp h
      rw [enter, asset_of_none fresh, remarks_foldl_addRemarks nil, Draft.remarks_ofAsset distinct]
      simp [Entity.remarkLists, Registry.addAsset, Registry.enlist]
  | association a =>
      rw [enter, association, Registry.addAssociation, remarks_addRemarks nil]
      simp [Entity.remarkLists]

/-- Where no name repeats, a property holds of all blocks of remarks exactly if it holds of the
remarks on everything that is declared. -/
theorem remarks_foldl_enter {es : List Entity} (nil : P [])
    (h : (es.foldl enter s).errors = []) :
    (∀ b ∈ (es.foldl enter s).registry.remarks, P b.entries) ↔
      (∀ b ∈ s.registry.remarks, P b.entries) ∧
        ∀ rs ∈ es.flatMap Entity.remarkLists, P rs := by
  induction es generalizing s with
  | nil => simp
  | cons e es ih =>
      rw [List.foldl_cons] at h ⊢
      rw [ih h, remarks_enter nil (errors_foldl_enter.mp h).1, List.flatMap_cons,
        List.forall_mem_append, and_assoc]

end Declared

end MetaAttack
