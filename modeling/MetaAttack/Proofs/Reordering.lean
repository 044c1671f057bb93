import Mathlib.Data.Multiset.Bind
import MetaAttack.Proofs.WellFormed

/-!
# Reordering

Two specifications may differ in the order only in which they declare things: items, the assets of a
category, the members of an asset, the associations of a block and the remarks of a declaration.
Whether the declarations are well formed does not depend on such an order.

## Implementation notes

Lists that agree up to order, and up to a relation of their elements, are related as multisets.
Every rule is shown to pass from one specification to the other only, since reordering is symmetric.
-/

namespace MetaAttack

/-! ### Matched lists -/

/-- The lists match one to one by the relation, in any order. -/
def Matched {α β : Type} (r : α → β → Prop) (xs : List α) (ys : List β) : Prop :=
  Multiset.Rel r xs ys

namespace Matched

variable {α β γ δ : Type} {r : α → β → Prop} {p : γ → δ → Prop} {xs : List α} {ys : List β}

theorem cons {x : α} {y : β} (head : r x y) (rest : Matched r xs ys) :
    Matched r (x :: xs) (y :: ys) := Multiset.Rel.cons head rest

theorem symm {r : α → α → Prop} {xs ys : List α} (hr : ∀ x y, r x y → r y x)
    (h : Matched r xs ys) : Matched r ys xs :=
  Multiset.rel_flip.mp (Multiset.Rel.mono h fun x _ y _ => hr x y)

/-- The second list may come in any order. -/
theorem trans_perm {zs : List β} (h : Matched r xs ys) (perm : ys.Perm zs) : Matched r xs zs := by
  rw [Matched, ← Multiset.coe_eq_coe.mpr perm]
  exact h

/-- Every entry has a partner. -/
theorem exists_mem (h : Matched r xs ys) {x : α} (hx : x ∈ xs) : ∃ y ∈ ys, r x y :=
  Multiset.exists_mem_of_rel_of_mem h hx

/-- What is made of partners are partners. -/
theorem map {f : α → γ} {g : β → δ} (h : Matched r xs ys)
    (hfg : ∀ x ∈ xs, ∀ y ∈ ys, r x y → p (f x) (g y)) : Matched p (xs.map f) (ys.map g) := by
  rw [Matched, ← Multiset.map_coe, ← Multiset.map_coe, Multiset.rel_map]
  exact Multiset.Rel.mono h hfg

/-- What partners contribute may itself be matched in any order. -/
theorem flatMap {f : α → List γ} {g : β → List δ} (h : Matched r xs ys)
    (hfg : ∀ x y, r x y → Matched p (f x) (g y)) : Matched p (xs.flatMap f) (ys.flatMap g) := by
  rw [Matched, ← Multiset.coe_bind, ← Multiset.coe_bind]
  exact Multiset.rel_bind (fun x y => hfg x y) h

/-- Matched by equality, lists are permutations. -/
theorem eq_iff_perm {xs ys : List α} : Matched Eq xs ys ↔ xs.Perm ys :=
  Multiset.rel_eq.trans Multiset.coe_eq_coe

theorem map_perm {f : α → γ} {g : β → γ} (h : Matched r xs ys)
    (hfg : ∀ x y, r x y → f x = g y) : (xs.map f).Perm (ys.map g) :=
  eq_iff_perm.mp (h.map fun x _ y _ => hfg x y)

theorem flatMap_perm {f : α → List γ} {g : β → List γ} (h : Matched r xs ys)
    (hfg : ∀ x y, r x y → (f x).Perm (g y)) : (xs.flatMap f).Perm (ys.flatMap g) :=
  eq_iff_perm.mp (h.flatMap fun x y hxy => eq_iff_perm.mpr (hfg x y hxy))

/-- Partners are both kept or both dropped. -/
theorem filter {p : α → Bool} {q : β → Bool} (h : Matched r xs ys)
    (hpq : ∀ x y, r x y → p x = q y) : Matched r (xs.filter p) (ys.filter q) := by
  rw [← List.filterMap_eq_filter, ← List.filterMap_eq_filter, List.filterMap_eq_flatMap_toList,
    List.filterMap_eq_flatMap_toList]
  apply h.flatMap
  intro x y hxy
  rw [Option.guard, Option.guard, hpq x y hxy]
  cases q y with
  | true => exact .cons hxy .zero
  | false => exact .zero

end Matched

/-! ### Reordered declarations -/

/-- The same step with its remarks in another order. -/
structure AttackStep.Reordered (s t : AttackStep) : Prop where
  remarks : s.remarks.Perm t.remarks
  rest : t = { s with remarks := t.remarks }

/-- The same asset with its members and its remarks in another order. -/
structure Asset.Reordered (a b : Asset) : Prop where
  remarks : a.remarks.Perm b.remarks
  steps : Matched AttackStep.Reordered a.steps b.steps
  bindings : a.bindings.Perm b.bindings
  rest : b = { a with remarks := b.remarks, steps := b.steps, bindings := b.bindings }

/-- The same category with its assets and its remarks in another order. -/
structure Category.Reordered (c d : Category) : Prop where
  remarks : c.remarks.Perm d.remarks
  assets : Matched Asset.Reordered c.assets d.assets
  rest : d = { c with remarks := d.remarks, assets := d.assets }

/-- The same association with its remarks in another order. -/
structure Association.Reordered (a b : Association) : Prop where
  remarks : a.remarks.Perm b.remarks
  rest : b = { a with remarks := b.remarks }

/-- The same declaration with all that it holds in another order. -/
inductive Declaration.Reordered : Declaration → Declaration → Prop
  | define (d : Define) : Reordered (.define d) (.define d)
  | category {c d : Category} (h : c.Reordered d) : Reordered (.category c) (.category d)
  | associations {as bs : List Association} (h : Matched Association.Reordered as bs) :
      Reordered (.associations as) (.associations bs)

/-- Includes are not looked into. -/
inductive Item.Reordered : Item → Item → Prop
  | declaration {d e : Declaration} (h : d.Reordered e) :
      Reordered (.declaration d) (.declaration e)
  | inclusion (i : Include) : Reordered (.inclusion i) (.inclusion i)

/-- The same specification with everything in another order. -/
def Spec.Reordered (s t : Spec) : Prop := Matched Item.Reordered s.items t.items

/-- The same entity with all that it holds in another order. -/
inductive Entity.Reordered : Entity → Entity → Prop
  | define (d : Define) : Reordered (.define d) (.define d)
  | category {rs qs : List Remark} (name : Ident) (span : Span) (h : rs.Perm qs) :
      Reordered (.category name rs span) (.category name qs span)
  | asset {a b : Asset} (category : String) (h : a.Reordered b) :
      Reordered (.asset category a) (.asset category b)
  | association {a b : Association} (h : a.Reordered b) :
      Reordered (.association a) (.association b)

/-! ### Reordering is symmetric -/

theorem AttackStep.Reordered.symm {s t : AttackStep} (h : s.Reordered t) : t.Reordered s where
  remarks := h.remarks.symm
  rest := by rw [h.rest]

theorem Asset.Reordered.symm {a b : Asset} (h : a.Reordered b) : b.Reordered a where
  remarks := h.remarks.symm
  steps := h.steps.symm fun _ _ => AttackStep.Reordered.symm
  bindings := h.bindings.symm
  rest := by rw [h.rest]

theorem Association.Reordered.symm {a b : Association} (h : a.Reordered b) : b.Reordered a where
  remarks := h.remarks.symm
  rest := by rw [h.rest]

theorem Entity.Reordered.symm {e f : Entity} (h : e.Reordered f) : f.Reordered e := by
  cases h with
  | define d => exact .define d
  | category name span h => exact .category name span h.symm
  | asset c h => exact .asset c h.symm
  | association h => exact .association h.symm

/-- Reordered declarations have reordered entities. -/
theorem Declaration.Reordered.entities {d e : Declaration} (h : d.Reordered e) :
    Matched Entity.Reordered d.entities e.entities := by
  cases h with
  | define d => exact .cons (.define d) .zero
  | @category c d h =>
      have name : d.name = c.name := by rw [h.rest]
      have span : d.span = c.span := by rw [h.rest]
      rw [Declaration.entities, Declaration.entities, name, span]
      apply Matched.cons (.category c.name c.span h.remarks)
      exact h.assets.map fun _ _ _ _ hab => .asset c.name.name hab
  | associations h => exact h.map fun _ _ _ _ hab => .association hab

/-! ### What reordered entities share -/

/-- The rules for a single step do not speak of an order. -/
theorem AttackStep.Reordered.legal {s t : AttackStep} (h : s.Reordered t) (legal : s.Legal) :
    t.Legal := by
  rw [h.rest]
  exact ⟨legal.existence, legal.requires, legal.classification, legal.defense, legal.attack,
    legal.time⟩

/-- Names stay distinct in another order. -/
theorem Asset.Reordered.distinct {a b : Asset} (h : a.Reordered b) (distinct : a.Distinct) :
    b.Distinct where
  steps := by
    have names := h.steps.map_perm (f := fun s => s.name.name) (g := fun s => s.name.name)
      fun s t hst => by rw [hst.rest]
    exact names.nodup_iff.mp distinct.steps
  bindings := (h.bindings.map _).nodup_iff.mp distinct.bindings

/-- An association gives the same fields whichever of its ends is written first. -/
theorem Association.Reordered.gives {a b : Association} (h : a.Reordered b) {n x t : String}
    (gives : a.Gives n x t) : b.Gives n x t := by
  rw [h.rest]
  exact gives

/-- The lists of entities differ in the order of all that is declared only. -/
def Reordered (es fs : List Entity) : Prop := Matched Entity.Reordered es fs

namespace Reordered

variable {es fs : List Entity}

/-- Reordering can be undone. -/
theorem symm (h : Reordered es fs) : Reordered fs es := Matched.symm (fun _ _ => .symm) h

/-- The same defines, in another order. -/
theorem defines (h : Reordered es fs) : (defines es).Perm (defines fs) := by
  apply Matched.flatMap_perm h
  intro e f hef
  cases hef <;> exact .refl _

/-- The same assets in the same categories, each with its members in another order. -/
theorem assets (h : Reordered es fs) :
    Matched (fun x y => x.1 = y.1 ∧ x.2.Reordered y.2) (assets es) (assets fs) := by
  apply Matched.flatMap h
  intro e f hef
  cases hef with
  | asset c h => exact .cons ⟨rfl, h⟩ .zero
  | define | category | association => exact .zero

theorem associations (h : Reordered es fs) :
    Matched Association.Reordered (associations es) (associations fs) := by
  apply Matched.flatMap h
  intro e f hef
  cases hef with
  | association h => exact .cons h .zero
  | define | category | asset => exact .zero

theorem remarkLists (h : Reordered es fs) :
    Matched List.Perm (es.flatMap Entity.remarkLists) (fs.flatMap Entity.remarkLists) := by
  apply Matched.flatMap h
  intro e f hef
  cases hef with
  | define d => exact .zero
  | category name span h => exact .cons h .zero
  | asset c h => exact .cons h.remarks (h.steps.map fun _ _ _ _ hst => hst.remarks)
  | association h => exact .cons h.remarks .zero

/-- A declared asset is declared on the other side too. -/
theorem exists_asset (h : Reordered es fs) {x : String × Asset} (hx : x ∈ MetaAttack.assets es) :
    ∃ y ∈ MetaAttack.assets fs, y.2.name = x.2.name ∧ x.1 = y.1 ∧ x.2.Reordered y.2 := by
  obtain ⟨y, hy, category, hxy⟩ := h.assets.exists_mem hx
  exact ⟨y, hy, by rw [hxy.rest], category, hxy⟩

/-- A step that is declared in one order is declared in the other. -/
theorem declaresStep (h : Reordered es fs) {n : String} {s : AttackStep}
    (hs : DeclaresStep es n s) : ∃ t, DeclaresStep fs n t ∧ s.Reordered t := by
  obtain ⟨x, hx, hn, hs⟩ := hs
  obtain ⟨y, hy, name, _, hxy⟩ := h.exists_asset hx
  obtain ⟨t, ht, hst⟩ := hxy.steps.exists_mem hs
  exact ⟨t, ⟨y, hy, (congrArg Ident.name name).trans hn, ht⟩, hst⟩

/-! ### The facts do not depend on the order -/

/-- Every part of the schema is read off what is declared, and not off the order. -/
theorem schema_asset (h : Reordered es fs) {n : String} (known : (schemaOf es).asset n) :
    (schemaOf fs).asset n := by
  obtain ⟨x, hx, hn⟩ := known
  obtain ⟨y, hy, name, _⟩ := h.exists_asset hx
  exact ⟨y, hy, (congrArg Ident.name name).trans hn⟩

theorem schema_parent (h : Reordered es fs) {n p : String} (edge : (schemaOf es).parent n p) :
    (schemaOf fs).parent n p := by
  obtain ⟨x, hx, hn, i, hi, hp⟩ := edge
  obtain ⟨y, hy, name, _, hxy⟩ := h.exists_asset hx
  have parent : y.2.parent = x.2.parent := by rw [hxy.rest]
  exact ⟨y, hy, (congrArg Ident.name name).trans hn, i, parent.trans hi, hp⟩

theorem schema_field (h : Reordered es fs) {n x t : String} (field : (schemaOf es).field n x t) :
    (schemaOf fs).field n x t := by
  obtain ⟨a, ha, gives⟩ := field
  obtain ⟨b, hb, hab⟩ := h.associations.exists_mem ha
  exact ⟨b, hb, hab.gives gives⟩

theorem schema_binding (h : Reordered es fs) {n x : String} {e : Expr}
    (binding : (schemaOf es).binding n x e) : (schemaOf fs).binding n x e := by
  obtain ⟨x, hx, hn, v, hv, found⟩ := binding
  obtain ⟨y, hy, name, _, hxy⟩ := h.exists_asset hx
  exact ⟨y, hy, (congrArg Ident.name name).trans hn, v, hxy.bindings.mem_iff.mp hv, found⟩

theorem schema_step (h : Reordered es fs) {n x : String} (step : (schemaOf es).step n x) :
    (schemaOf fs).step n x := by
  obtain ⟨s, hs, hx⟩ := step
  obtain ⟨t, ht, hst⟩ := h.declaresStep hs
  have name : t.name = s.name := by rw [hst.rest]
  exact ⟨t, ht, (congrArg Ident.name name).trans hx⟩

/-- Reordered entities declare the same facts. -/
theorem schemaOf_eq (h : Reordered es fs) : schemaOf es = schemaOf fs := by
  ext n x t
  · exact ⟨h.schema_asset, h.symm.schema_asset⟩
  · exact ⟨h.schema_parent, h.symm.schema_parent⟩
  · exact ⟨h.schema_field, h.symm.schema_field⟩
  · exact ⟨h.schema_binding, h.symm.schema_binding⟩
  · exact ⟨h.schema_step, h.symm.schema_step⟩

/-! ### The rules do not depend on the order -/

theorem namesDistinct (h : Reordered es fs) (names : NamesDistinct es) : NamesDistinct fs where
  defines := (h.defines.map _).nodup_iff.mp names.defines
  assets := by
    have same := h.assets.map_perm (f := fun x => x.2.name.name) (g := fun x => x.2.name.name)
      fun x y hxy => by rw [hxy.2.rest]
    exact same.nodup_iff.mp names.assets
  members := by
    intro y hy
    obtain ⟨x, hx, _, _, hyx⟩ := h.symm.exists_asset hy
    exact hyx.symm.distinct (names.members x hx)

/-- All rules carry over, one after another. -/
theorem identified (h : Reordered es fs) (identified : Identified es) : Identified fs := by
  obtain ⟨⟨d, hd, id⟩, ⟨e, he, version⟩⟩ := identified
  exact ⟨⟨d, h.defines.mem_iff.mp hd, id⟩, ⟨e, h.defines.mem_iff.mp he, version⟩⟩

theorem fieldsSound (h : Reordered es fs) (sound : FieldsSound es) : FieldsSound fs where
  ends := by
    intro b hb
    obtain ⟨a, ha, hba⟩ := h.symm.associations.exists_mem hb
    rw [← h.schemaOf_eq, hba.symm.rest]
    exact sound.ends a ha
  distinct := by
    have same := h.associations.flatMap_perm (f := Association.fieldKeys)
      (g := Association.fieldKeys) fun a b hab => by rw [hab.rest]; exact .refl _
    exact same.nodup_iff.mp sound.distinct
  notStep := h.schemaOf_eq ▸ sound.notStep
  notInherited := h.schemaOf_eq ▸ sound.notInherited

theorem stepsSound (h : Reordered es fs) (sound : StepsSound es) : StepsSound fs where
  legal := by
    intro n t ht
    obtain ⟨s, hs, hts⟩ := h.symm.declaresStep ht
    exact hts.symm.legal (sound.legal n s hs)
  appends := by
    intro n t ht
    obtain ⟨s, hs, hts⟩ := h.symm.declaresStep ht
    rw [← h.schemaOf_eq, hts.symm.rest]
    exact sound.appends n s hs
  kinds := by
    intro n m t t' path ht ht'
    obtain ⟨s, hs, hts⟩ := h.symm.declaresStep ht
    obtain ⟨s', hs', hts'⟩ := h.symm.declaresStep ht'
    rw [← h.schemaOf_eq] at path
    rw [hts.symm.rest, hts'.symm.rest]
    exact sound.kinds n m s s' path hs hs'

/-- Expressions are judged by the schema alone. -/
theorem expressionsSound (h : Reordered es fs) (sound : ExpressionsSound es) :
    ExpressionsSound fs where
  notInherited := h.schemaOf_eq ▸ sound.notInherited
  bindings := h.schemaOf_eq ▸ sound.bindings
  requires := by
    intro n t r ht
    obtain ⟨s, hs, hts⟩ := h.symm.declaresStep ht
    rw [← h.schemaOf_eq, hts.symm.rest]
    exact sound.requires n s r hs
  reaches := by
    intro n t r ht
    obtain ⟨s, hs, hts⟩ := h.symm.declaresStep ht
    rw [← h.schemaOf_eq, hts.symm.rest]
    exact sound.reaches n s r hs

/-- Reordered entities are well formed together. -/
theorem wellFormed (h : Reordered es fs) (w : WellFormed es) : WellFormed fs where
  names := h.namesDistinct w.names
  remarks := by
    intro qs hqs
    obtain ⟨rs, hrs, perm⟩ := (h.symm.remarkLists).exists_mem hqs
    exact (perm.map _).nodup_iff.mpr (w.remarks rs hrs)
  identified := h.identified w.identified
  grounded := by
    obtain ⟨parents, acyclic⟩ := w.grounded
    rw [h.schemaOf_eq] at parents acyclic
    exact ⟨parents, acyclic⟩
  fields := h.fieldsSound w.fields
  steps := h.stepsSound w.steps
  expressions := h.expressionsSound w.expressions

end Reordered

end MetaAttack
