import MetaAttack.Proofs.Categories
import MetaAttack.Proofs.Firsts

/-!
# The first declaration wins

What declaring makes of the declarations that an analyzer has met is given in closed form: the
registry holds the first define of each key and the first asset of each name, with the first of its
steps and variables of each name; every other define, asset, step or variable is one error, with the
line of the one that is held; and the remarks are those on whatever is held.

## Implementation notes

Errors and remarks are given up to their order, since those of different kinds are interleaved.
-/

namespace MetaAttack

/-! ### Members -/

namespace Asset

/-- The steps of an asset without those that repeat a name. -/
def firstSteps (a : Asset) : List AttackStep := firsts (fun s => s.name.name) a.steps

/-- The variables of an asset without those that repeat a name. -/
def firstBindings (a : Asset) : List Variable := firsts (fun v => v.name.name) a.bindings

/-- An error for each member that repeats a name, the steps first. -/
def memberErrors (a : Asset) : List SemanticError :=
  ((repeats (fun s => s.name.name) a.steps).map fun p =>
      .duplicateStep a.name.name p.1.name.name p.2.span.line p.1.span) ++
    (repeats (fun v => v.name.name) a.bindings).map fun p =>
      .duplicateVariable p.1.name.name p.2.span.line p.1.span

/-- The remarks on the asset and on its first steps. -/
def blocks (a : Asset) : List RemarkBlock :=
  ⟨.asset a.name.name, a.remarks⟩ ::
    a.firstSteps.map fun s => ⟨.step ⟨a.name.name, s.name.name⟩, s.remarks⟩

end Asset

/-- The entry is that of the asset, with the first of its members of each name. -/
structure AssetEntry.Keeps (category : String) (a : Asset) (e : AssetEntry) : Prop where
  name : e.name = a.name.name
  category : e.category = category
  isAbstract : e.isAbstract = a.isAbstract
  parent : e.parent = a.parent
  span : e.span = a.span
  fields : e.fields.entries = []
  bindings : e.bindings.entries = a.firstBindings.map .ofVariable
  steps : e.steps.entries = a.firstSteps.map .ofStep

/-- The entry made for an asset keeps what comes first in it. -/
theorem AssetEntry.keeps_ofAsset (category : String) (a : Asset) :
    (ofAsset category a).Keeps category a where
  name := rfl
  category := rfl
  isAbstract := rfl
  parent := rfl
  span := rfl
  fields := rfl
  bindings := Table.entries_ofList (fun _ => rfl) a.bindings
  steps := Table.entries_ofList (fun _ => rfl) a.steps

namespace Draft

variable {d : Draft}

theorem addStep_of_none {s : AttackStep} (fresh : d.entry.steps.find? s.name.name = none) :
    d.addStep s =
      { d with
        entry := d.entry.addStep (.ofStep s)
        remarks := d.remarks ++ [⟨.step ⟨d.entry.name, s.name.name⟩, s.remarks⟩] } := by
  rw [addStep, fresh]

/-- A step whose name is taken leaves an error, and nothing else. -/
theorem addStep_of_some {s : AttackStep} {prior : StepEntry}
    (taken : d.entry.steps.find? s.name.name = some prior) :
    d.addStep s =
      { d with
        errors := d.errors ++
          [.duplicateStep d.entry.name s.name.name prior.span.line s.span] } := by
  rw [addStep, taken]

theorem addVariable_of_none {v : Variable} (fresh : d.entry.bindings.find? v.name.name = none) :
    d.addVariable v = { d with entry := d.entry.addVariable (.ofVariable v) } := by
  rw [addVariable, fresh]

theorem addVariable_of_some {v : Variable} {prior : VariableEntry}
    (taken : d.entry.bindings.find? v.name.name = some prior) :
    d.addVariable v =
      { d with
        errors := d.errors ++ [.duplicateVariable v.name.name prior.span.line v.span] } := by
  rw [addVariable, taken]

theorem name_foldl_addStep (d : Draft) (ss : List AttackStep) :
    (ss.foldl addStep d).entry.name = d.entry.name := by
  rw [entry_foldl_addStep]

/-- Steps that are added to a draft without steps make an error each where they repeat a name. The
remarks on the others are kept. -/
theorem foldl_addStep (none : d.entry.steps = .empty) (ss : List AttackStep) :
    (ss.foldl addStep d).errors =
        d.errors ++ (repeats (fun s => s.name.name) ss).map (fun p =>
          .duplicateStep d.entry.name p.1.name.name p.2.span.line p.1.span) ∧
      (ss.foldl addStep d).remarks =
        d.remarks ++ (firsts (fun s => s.name.name) ss).map fun s =>
          ⟨.step ⟨d.entry.name, s.name.name⟩, s.remarks⟩ := by
  induction ss using List.reverseRecOn with
  | nil => exact ⟨(List.append_nil _).symm, (List.append_nil _).symm⟩
  | append_singleton ss s ih =>
      have found : (ss.foldl addStep d).entry.steps.find? s.name.name =
          (ss.find? fun t => t.name.name = s.name.name).map .ofStep := by
        rw [entry_foldl_addStep, none]
        exact Table.find?_ofList (fun _ => rfl) ss s.name.name
      rw [List.foldl_append, List.foldl_cons, List.foldl_nil]
      cases h : ss.find? fun t => t.name.name = s.name.name with
      | none =>
          rw [h] at found
          rw [addStep_of_none found, repeats_concat_of_none h, firsts_concat_of_none h]
          refine ⟨ih.1, ?_⟩
          rw [ih.2, List.map_append, List.append_assoc, name_foldl_addStep]
          rfl
      | some first =>
          rw [h] at found
          rw [addStep_of_some found, repeats_concat_of_some h, firsts_concat_of_some h]
          refine ⟨?_, ih.2⟩
          rw [ih.1, List.map_append, List.append_assoc, name_foldl_addStep]
          rfl

/-- All variables of an asset, where there are none yet: one error for each that repeats a name. -/
theorem foldl_addVariable (none : d.entry.bindings = .empty) (vs : List Variable) :
    (vs.foldl addVariable d).errors =
      d.errors ++ (repeats (fun v => v.name.name) vs).map fun p =>
        .duplicateVariable p.1.name.name p.2.span.line p.1.span := by
  induction vs using List.reverseRecOn with
  | nil => exact (List.append_nil _).symm
  | append_singleton vs v ih =>
      have found : (vs.foldl addVariable d).entry.bindings.find? v.name.name =
          (vs.find? fun w => w.name.name = v.name.name).map .ofVariable := by
        rw [entry_foldl_addVariable, none]
        exact Table.find?_ofList (fun _ => rfl) vs v.name.name
      rw [List.foldl_append, List.foldl_cons, List.foldl_nil]
      cases h : vs.find? fun w => w.name.name = v.name.name with
      | none =>
          rw [h] at found
          rw [addVariable_of_none found, repeats_concat_of_none h]
          exact ih
      | some first =>
          rw [h] at found
          rw [addVariable_of_some found, repeats_concat_of_some h, ih, List.map_append,
            List.append_assoc]
          rfl

/-- What is wrong in an asset, in closed form. -/
theorem errors_ofAsset_eq (category : String) (a : Asset) :
    (ofAsset category a).errors = a.memberErrors := by
  rw [ofAsset, foldl_addVariable, (foldl_addStep rfl a.steps).1]
  · rfl
  · rw [entry_foldl_addStep]
    rfl

/-- The remarks that an asset leaves, in closed form. -/
theorem remarks_ofAsset_eq (category : String) (a : Asset) :
    (ofAsset category a).remarks = a.blocks := by
  rw [ofAsset, remarks_foldl_addVariable, (foldl_addStep rfl a.steps).2]
  rfl

end Draft

/-! ### Declarations -/

/-- The first define of each key. -/
def firstDefines (ds : List Define) : List Define := firsts (fun d => d.key.name) ds

/-- The first asset of each name, with its category. -/
def firstAssets (as : List (String × Asset)) : List (String × Asset) :=
  firsts (fun x => x.2.name.name) as

/-- An error for each define that repeats a key. -/
def duplicateDefines (ds : List Define) : List SemanticError :=
  (repeats (fun d => d.key.name) ds).map fun p =>
    .duplicateDefine p.1.key.name p.2.span.line p.1.span

/-- An error for each asset that repeats a name. -/
def duplicateAssets (as : List (String × Asset)) : List SemanticError :=
  (repeats (fun x => x.2.name.name) as).map fun p =>
    .duplicateAsset p.1.2.name.name p.2.2.span.line p.1.2.name.span

/-- The errors in the members of the first assets. -/
def memberErrors (as : List (String × Asset)) : List SemanticError :=
  (firstAssets as).flatMap fun x => x.2.memberErrors

namespace Entity

/-- A category, before any asset is listed. -/
def categories : Entity → List CategoryEntry
  | category name _ span => [⟨name.name, [], span⟩]
  | define _ | asset .. | association _ => []

/-- The remarks on what is kept in any case. -/
def blocks : Entity → List RemarkBlock
  | category name remarks _ => [⟨.category name.name, remarks⟩]
  | association a => [⟨.association a.name.name, a.remarks⟩]
  | define _ | asset .. => []

end Entity

/-- The categories that are declared, in order. -/
def categories (es : List Entity) : List CategoryEntry := es.flatMap Entity.categories

/-- The remarks on categories and associations and those on the first assets. -/
def blocks (es : List Entity) : List RemarkBlock :=
  es.flatMap Entity.blocks ++ (firstAssets (assets es)).flatMap fun x => x.2.blocks

/-- What is declared holds the first declaration of each name, and an error for each other one. -/
structure Declared.FirstWins (es : List Entity) (s : Declared) : Prop where
  defines : s.registry.defines.entries = (firstDefines (defines es)).map .ofDefine
  /-- The first assets, each with the first of its members of each name. -/
  assets : List.Forall₂ (fun x e => AssetEntry.Keeps x.1 x.2 e) (firstAssets (assets es))
    s.registry.assets.entries
  /-- Each category with its first assets. -/
  categories : s.registry.categories.entries =
    (firsts CategoryEntry.name (categories es)).map fun c =>
      { c with
        assets := ((firstAssets (MetaAttack.assets es)).filter fun x => x.1 = c.name).map
          fun x => x.2.name.name }
  associations : s.registry.associations = (associations es).map .ofAssociation
  remarks : s.registry.remarks.Perm ((blocks es).filter fun b => !b.entries.isEmpty)
  errors : s.errors.Perm
    (duplicateDefines (MetaAttack.defines es) ++ duplicateAssets (MetaAttack.assets es) ++
      memberErrors (MetaAttack.assets es))

variable {es : List Entity} {ds : List Define} {as : List (String × Asset)}

theorem defines_concat (es : List Entity) (e : Entity) :
    defines (es ++ [e]) = defines es ++ e.defines := by
  simp [defines]

theorem assets_concat (es : List Entity) (e : Entity) :
    assets (es ++ [e]) = assets es ++ e.assets := by
  simp [assets]

/-- An asset under a new name brings in what is wrong in it. -/
theorem memberErrors_concat_of_none {x : String × Asset}
    (h : (as.find? fun y => y.2.name.name = x.2.name.name) = none) :
    memberErrors (as ++ [x]) = memberErrors as ++ x.2.memberErrors := by
  rw [memberErrors, firstAssets, firsts_concat_of_none h, List.flatMap_append]
  exact congrArg (_ ++ ·) (List.flatMap_singleton _ x)

namespace Declared

variable {s : Declared}

/-- The last entity is entered last. -/
theorem of_concat (es : List Entity) (e : Entity) : of (es ++ [e]) = (of es).enter e := by
  rw [of, List.foldl_append]
  rfl

/-- A key has the value of its first define. -/
theorem find?_defines_of (es : List Entity) (n : String) :
    (of es).registry.defines.find? n =
      ((MetaAttack.defines es).find? fun d => d.key.name = n).map .ofDefine := by
  rw [of, defines_foldl_enter]
  exact Table.find?_ofList (fun _ => rfl) (MetaAttack.defines es) n

/-- A name belongs to the first asset of this name. -/
theorem asset?_of (es : List Entity) (n : String) :
    (of es).registry.asset? n =
      ((MetaAttack.assets es).find? fun x => x.2.name.name = n).map fun x =>
        .ofAsset x.1 x.2 := by
  rw [Registry.asset?, of, assets_foldl_enter]
  exact Table.find?_ofList (fun _ => rfl) (MetaAttack.assets es) n

theorem defines_of (es : List Entity) :
    (of es).registry.defines.entries = (firstDefines (MetaAttack.defines es)).map .ofDefine := by
  rw [of, defines_foldl_enter]
  exact Table.entries_ofList (fun _ => rfl) (MetaAttack.defines es)

/-- All assets but those that repeat a name, in order. -/
theorem assets_of (es : List Entity) :
    (of es).registry.assets.entries =
      (firstAssets (MetaAttack.assets es)).map fun x => .ofAsset x.1 x.2 := by
  rw [of, assets_foldl_enter]
  exact Table.entries_ofList (fun _ => rfl) (MetaAttack.assets es)

/-! ### One step -/

theorem define_of_none {d : Define} (h : s.registry.defines.find? d.key.name = none) :
    s.define d = { s with registry := s.registry.addDefine (.ofDefine d) } := by
  rw [define, h]
  rfl

/-- A key that is taken leaves an error with the line of the define that has it. -/
theorem define_of_some {d : Define} {prior : DefineEntry}
    (h : s.registry.defines.find? d.key.name = some prior) :
    s.define d =
      { s with errors := s.errors ++ [.duplicateDefine d.key.name prior.span.line d.span] } := by
  rw [define, h]

/-- A name that is taken leaves an error with the line of the asset that has it. -/
theorem asset_of_some {c : String} {a : Asset} {prior : AssetEntry}
    (h : s.registry.asset? a.name.name = some prior) :
    s.asset c a =
      { s with
        errors := s.errors ++ [.duplicateAsset a.name.name prior.span.line a.name.span] } := by
  rw [asset, h]

/-- An asset whose name is new brings its remarks and the errors in its members. -/
theorem asset_eq_of_none {c : String} {a : Asset} (h : s.registry.asset? a.name.name = none) :
    s.asset c a =
      ⟨{ (s.registry.addAsset (.ofAsset c a)).enlist c a.name.name with
          remarks := s.registry.remarks ++ a.blocks.filter fun b => !b.entries.isEmpty },
        s.errors ++ a.memberErrors⟩ := by
  rw [asset_of_none h, Registry.foldl_addRemarks, Draft.remarks_ofAsset_eq,
    Draft.errors_ofAsset_eq]
  rfl

theorem remarks_addRemarks_eq (R : Registry) (b : RemarkBlock) :
    (R.addRemarks b).remarks = R.remarks ++ [b].filter fun b => !b.entries.isEmpty :=
  congrArg Registry.remarks (R.foldl_addRemarks [b])

/-! ### Errors and remarks -/

open scoped List in
/-- What comes at the end can be moved to where its kind ends. -/
theorem perm_append_middle {α : Type} {es ds fs : List α} (h : es ~ ds ++ fs) (xs : List α) :
    es ++ xs ~ ds ++ xs ++ fs := by
  calc es ++ xs
    _ ~ ds ++ fs ++ xs := h.append_right xs
    _ = ds ++ (fs ++ xs) := List.append_assoc ..
    _ ~ ds ++ (xs ++ fs) := List.perm_append_comm.append_left ds
    _ = ds ++ xs ++ fs := (List.append_assoc ..).symm

/-- A define adds an error if its key was met before. -/
theorem define_adds {d : Define}
    (found : s.registry.defines.find? d.key.name =
      (ds.find? fun b => b.key.name = d.key.name).map .ofDefine) :
    ∃ new, (s.define d).errors = s.errors ++ new ∧
      duplicateDefines (ds ++ [d]) = duplicateDefines ds ++ new := by
  cases h : ds.find? fun b => b.key.name = d.key.name with
  | none =>
      rw [h] at found
      rw [define_of_none found, duplicateDefines, repeats_concat_of_none h]
      exact ⟨[], (List.append_nil _).symm, (List.append_nil _).symm⟩
  | some first =>
      rw [h] at found
      rw [define_of_some found, duplicateDefines, repeats_concat_of_some h, List.map_append]
      exact ⟨_, rfl, rfl⟩

/-- An asset adds an error if its name was met before, and those in its members if not. -/
theorem asset_adds {c : String} {a : Asset}
    (found : s.registry.asset? a.name.name =
      (as.find? fun x => x.2.name.name = a.name.name).map fun x => .ofAsset x.1 x.2) :
    ∃ new members, (s.asset c a).errors = s.errors ++ new ++ members ∧
      duplicateAssets (as ++ [(c, a)]) = duplicateAssets as ++ new ∧
      memberErrors (as ++ [(c, a)]) = memberErrors as ++ members := by
  cases h : as.find? fun x => x.2.name.name = a.name.name with
  | none =>
      rw [h] at found
      rw [asset_eq_of_none found, duplicateAssets, repeats_concat_of_none h,
        memberErrors_concat_of_none h]
      refine ⟨[], a.memberErrors, ?_, (List.append_nil _).symm, rfl⟩
      rw [List.append_nil]
  | some first =>
      rw [h] at found
      rw [asset_of_some found, duplicateAssets, repeats_concat_of_some h, List.map_append,
        memberErrors, firstAssets, firsts_concat_of_some h]
      exact ⟨_, [], (List.append_nil _).symm, rfl, (List.append_nil _).symm⟩

/-- Every define and asset that repeats a name is reported, and what is wrong in the others. -/
theorem errors_of (es : List Entity) :
    (of es).errors.Perm
      (duplicateDefines (MetaAttack.defines es) ++ duplicateAssets (MetaAttack.assets es) ++
        memberErrors (MetaAttack.assets es)) := by
  induction es using List.reverseRecOn with
  | nil => exact .nil
  | append_singleton es e ih =>
      rw [of_concat, defines_concat, assets_concat]
      cases e with
      | define d =>
          obtain ⟨new, errors, duplicates⟩ := define_adds (find?_defines_of es d.key.name)
          rw [Entity.assets, List.append_nil, Entity.defines, enter, errors, duplicates,
            List.append_assoc _ (duplicateAssets _)]
          rw [List.append_assoc] at ih
          exact perm_append_middle ih new
      | asset c a =>
          obtain ⟨new, members, errors, duplicates, more⟩ :=
            asset_adds (c := c) (asset?_of es a.name.name)
          rw [Entity.defines, List.append_nil, Entity.assets, enter, errors, duplicates, more,
            ← List.append_assoc, ← List.append_assoc]
          exact (perm_append_middle ih new).append_right members
      | category name remarks span =>
          rw [Entity.defines, Entity.assets, List.append_nil, List.append_nil]
          exact ih
      | association a =>
          rw [Entity.defines, Entity.assets, List.append_nil, List.append_nil]
          exact ih

/-- Every block of remarks that is not empty is kept, unless it is on an asset that repeats a
name. -/
theorem remarks_of (es : List Entity) :
    (of es).registry.remarks.Perm ((blocks es).filter fun b => !b.entries.isEmpty) := by
  -- from the end, since an entity is judged by those in front of it
  induction es using List.reverseRecOn with
  | nil => exact .nil
  | append_singleton es e ih =>
      rw [blocks, List.filter_append] at ih
      rw [of_concat, blocks, assets_concat, List.flatMap_append, List.flatMap_singleton,
        List.filter_append, List.filter_append]
      cases e with
      | define d =>
          rw [enter, registry_define, Entity.assets, Entity.blocks, List.append_nil,
            List.filter_nil, List.append_nil]
          exact ih
      | category name remarks span =>
          rw [enter, Entity.assets, List.append_nil, remarks_addRemarks_eq]
          exact perm_append_middle ih _
      | association a =>
          rw [enter, Entity.assets, List.append_nil, association]
          change ((of es).registry.addRemarks _).remarks.Perm _
          rw [remarks_addRemarks_eq]
          exact perm_append_middle ih _
      | asset c a =>
          have found := asset?_of es a.name.name
          rw [Entity.blocks, List.filter_nil, List.append_nil, Entity.assets, enter]
          cases h : (MetaAttack.assets es).find? fun x => x.2.name.name = a.name.name with
          | none =>
              rw [h] at found
              rw [asset_eq_of_none found, firstAssets, firsts_concat_of_none h, List.flatMap_append,
                List.filter_append, ← List.append_assoc, List.flatMap_singleton]
              exact ih.append_right _
          | some first =>
              rw [h] at found
              rw [asset_of_some found, firstAssets, firsts_concat_of_some h]
              exact ih

end Declared

/-! ### Categories -/

/-- The category without its assets. -/
def CategoryEntry.head (c : CategoryEntry) : CategoryEntry := { c with assets := [] }

theorem Table.heads_insert {t u : Table CategoryEntry}
    (h : t.entries.map CategoryEntry.head = u.entries) (c : CategoryEntry) :
    (t.insert c).entries.map CategoryEntry.head = (u.insert c.head).entries := by
  have keys : t.entries.map Keyed.key = u.entries.map Keyed.key := by
    rw [← h, List.map_map]
    rfl
  have same : t.find? (Keyed.key c) = none ↔ u.find? (Keyed.key c.head) = none := by
    rw [find?_eq_none, find?_eq_none, keys]
    rfl
  rw [entries_insert, entries_insert]
  by_cases fresh : t.find? (Keyed.key c) = none
  · rw [if_pos fresh, if_pos (same.mp fresh), List.map_append, h]
    rfl
  · rw [if_neg fresh, if_neg (mt same.mpr fresh), h]

/-- Enlisting an asset changes members only. -/
theorem Registry.heads_enlist (R : Registry) (c a : String) :
    (R.enlist c a).categories.entries.map CategoryEntry.head =
      R.categories.entries.map CategoryEntry.head := by
  change (R.categories.entries.map _).map CategoryEntry.head = _
  rw [List.map_map]
  apply List.map_congr_left
  intro d _
  dsimp only [Function.comp_apply]
  split <;> rfl

/-- The members of a category are the first assets that name it, in order. -/
theorem Registry.membersOf_of (es : List Entity) (c : String) :
    (Declared.of es).registry.membersOf c =
      ((firstAssets (MetaAttack.assets es)).filter fun x => x.1 = c).map
        fun x => x.2.name.name := by
  rw [membersOf, Declared.assets_of, List.filter_map, List.map_map]
  rfl

namespace Declared

/-- The categories that are held, without their assets, are the first of each name. -/
theorem heads_of (es : List Entity) :
    (of es).registry.categories.entries.map CategoryEntry.head =
      firsts CategoryEntry.name (MetaAttack.categories es) := by
  have table : (of es).registry.categories.entries.map CategoryEntry.head =
      (Table.empty.insertAll (MetaAttack.categories es)).entries := by
    induction es using List.reverseRecOn with
    | nil => rfl
    | append_singleton es e ih =>
        have concat :
            MetaAttack.categories (es ++ [e]) = MetaAttack.categories es ++ e.categories := by
          simp [MetaAttack.categories]
        rw [of_concat, concat]
        cases e with
        | define d =>
            rw [enter, registry_define, Entity.categories, List.append_nil]
            exact ih
        | category name remarks span =>
            rw [enter, Entity.categories, Table.insertAll_concat, Registry.categories_addRemarks]
            exact Table.heads_insert ih ⟨name.name, [], span⟩
        | asset c a =>
            rw [enter, Entity.categories, List.append_nil, ← ih]
            cases h : (of es).registry.asset? a.name.name with
            | some prior => rw [asset_of_some h]
            | none =>
                rw [asset_eq_of_none h]
                exact Registry.heads_enlist _ c a.name.name
        | association a =>
            rw [enter, Entity.categories, List.append_nil, ← ih]
            exact congrArg (fun t => t.entries.map CategoryEntry.head)
              Registry.categories_addRemarks
  rw [table]
  exact Table.entries_insertAll_empty (MetaAttack.categories es)

/-- Categories of one name are merged into the first one, with the members of all. -/
theorem categories_of {es : List Entity} (h : (of es).registry.Listed) :
    (of es).registry.categories.entries =
      (firsts CategoryEntry.name (MetaAttack.categories es)).map fun c =>
        { c with
          assets := ((firstAssets (MetaAttack.assets es)).filter fun x => x.1 = c.name).map
            fun x => x.2.name.name } := by
  rw [← heads_of, List.map_map]
  have restored : ∀ c ∈ (of es).registry.categories.entries,
      c = { c.head with
        assets := ((firstAssets (MetaAttack.assets es)).filter fun x => x.1 = c.head.name).map
          fun x => x.2.name.name } := by
    intro c hc
    have lists := h.lists c hc
    rw [Registry.membersOf_of] at lists
    obtain ⟨name, listed, span⟩ := c
    exact congrArg (CategoryEntry.mk name · span) lists
  calc (of es).registry.categories.entries
    _ = (of es).registry.categories.entries.map id := (List.map_id _).symm
    _ = _ := List.map_congr_left restored

/-- Where the categories list their assets, entities that are entered into nothing leave the first
of each name and an error for each other one. -/
theorem firstWins_of {es : List Entity} (h : (of es).registry.Listed) : (of es).FirstWins es where
  defines := defines_of es
  assets := by
    rw [assets_of, List.forall₂_map_right_iff, List.forall₂_same]
    exact fun x _ => AssetEntry.keeps_ofAsset x.1 x.2
  categories := categories_of h
  associations := associations_of es
  remarks := remarks_of es
  errors := errors_of es

end Declared

/-- Of all that a new analyzer has met in the files it has taken in, the first declaration of each
name is held, and there is one error for each other one. -/
theorem Analyzer.firstWins_run (fs : List Feed) :
    (empty.run fs).declared.FirstWins (empty.entities fs) := by
  have listed := listed_run fs
  rw [declared_run_empty] at listed ⊢
  exact Declared.firstWins_of listed

end MetaAttack
