import MetaAttack.Proofs.Descendants
import MetaAttack.Proofs.Loops

/-!
# Adding an asset

An asset of a new name that no other asset extends is on no chain but its own. Whatever could be
resolved before still resolves, to the same result, and the checks of the hierarchy report the same
of all other assets.

## Implementation notes

A field may lead to an asset that is not declared. Adding that asset makes more expressions resolve,
so only results are kept, not failures. No result is lost either: the type of an expression that is
not declared is never the context of another one that has a type.
-/

namespace MetaAttack

open Relation

namespace Schema

variable {S S' : Schema} {P Q : String → Prop} {x n m p C T : String} {e : Expr}

/-- The second schema declares one asset more, which no asset of the first one extends. -/
structure Addition (S S' : Schema) (x : String) : Prop where
  fresh : ¬ S.asset x
  childless : ∀ {n}, ¬ S.parent n x
  asset : ∀ {n}, n ≠ x → (S'.asset n ↔ S.asset n)
  parent : ∀ {n p}, n ≠ x → (S'.parent n p ↔ S.parent n p)
  field : ∀ {n y t}, n ≠ x → (S'.field n y t ↔ S.field n y t)
  binding : ∀ {n y e}, n ≠ x → (S'.binding n y e ↔ S.binding n y e)
  step : ∀ {n y}, n ≠ x → (S'.step n y ↔ S.step n y)

namespace Addition

theorem ne_of_asset (add : S.Addition S' x) (known : S.asset n) : n ≠ x := by
  rintro rfl
  exact add.fresh known

/-- What a known asset descends to is known, and the new name is not. -/
theorem ne_of_descends (add : S.Addition S' x) (hS : S.Coherent) (path : S.Descends n m)
    (known : S.asset m) : n ≠ x := by
  rintro rfl
  rcases ReflTransGen.cases_head path with rfl | ⟨_, edge, _⟩
  · exact add.fresh known
  · exact add.fresh (hS.known edge.1)

/-- Others extend what they did before; nobody extends the new asset. -/
theorem extends_iff (add : S.Addition S' x) (ne : n ≠ x) : S'.Extends n p ↔ S.Extends n p := by
  constructor
  · rintro ⟨edge, known⟩
    have edge := (add.parent ne).mp edge
    have other : p ≠ x := by
      rintro rfl
      exact add.childless edge
    exact ⟨edge, (add.asset other).mp known⟩
  · rintro ⟨edge, known⟩
    exact ⟨(add.parent ne).mpr edge, (add.asset (add.ne_of_asset known)).mpr known⟩

/-- The new asset is on nobody else's way up. -/
theorem descends_iff (add : S.Addition S' x) (hS : S.Coherent) (ne : n ≠ x) :
    S'.Descends n m ↔ S.Descends n m := by
  constructor
  · intro path
    induction path using ReflTransGen.head_induction_on with
    | refl => exact .refl
    | head edge _ ih =>
        have edge := (add.extends_iff ne).mp edge
        exact .head edge (ih (add.ne_of_asset edge.2))
  · apply ReflTransGen.mono
    exact fun a b edge => (add.extends_iff (add.ne_of_asset (hS.known edge.1))).mpr edge

/-- What is nearest stays nearest, as the added asset is on no chain. -/
theorem nearest (add : S.Addition S' x) (hS : S.Coherent) (same : ∀ c, c ≠ x → (Q c ↔ P c))
    (near : S.Nearest P n m) : S'.Nearest Q n m := by
  induction near with
  | here known holds =>
      have ne := add.ne_of_asset known
      exact .here ((add.asset ne).mpr known) ((same _ ne).mpr holds)
  | above parent fails _ ih =>
      have ne := add.ne_of_asset (hS.known parent)
      exact .above ((add.parent ne).mpr parent) (mt (same _ ne).mp fails) ih

/-- The nearest field is where it was. -/
theorem nearest_field (add : S.Addition S' x) (hS : S.Coherent) {y : String}
    (near : S.Nearest (fun a => ∃ t, S.field a y t) n m) :
    S'.Nearest (fun a => ∃ t, S'.field a y t) n m :=
  add.nearest hS (fun _ ne => exists_congr fun _ => add.field ne) near

/-- The nearest variable is where it was. -/
theorem nearest_binding (add : S.Addition S' x) (hS : S.Coherent) {y : String}
    (near : S.Nearest (fun a => ∃ e, S.binding a y e) n m) :
    S'.Nearest (fun a => ∃ e, S'.binding a y e) n m :=
  add.nearest hS (fun _ ne => exists_congr fun _ => add.binding ne) near

/-- Only declared assets are shared, so the type that is looked for is not the added one. -/
theorem nearest_shared (add : S.Addition S' x) (hS : S.Coherent) {A : String}
    (near : S.Nearest (S.Descends A) n m) : S'.Nearest (S'.Descends A) n m := by
  have ne := add.ne_of_descends hS near.holds near.asset
  exact add.nearest hS (fun _ _ => add.descends_iff hS ne) near

/-- The added asset is on a loop only if it extends itself. -/
theorem inherits_self_iff (add : S.Addition S' x) (hS : S.Coherent) :
    S'.Inherits x x ↔ S'.Extends x x := by
  constructor
  · intro loop
    obtain ⟨p, edge, path⟩ := TransGen.head'_iff.mp loop
    by_cases same : p = x
    · exact same ▸ edge
    · rcases ReflTransGen.cases_tail ((add.descends_iff hS same).mp path) with rfl | ⟨_, _, last⟩
      · exact absurd rfl same
      · exact absurd last.2 add.fresh
  · exact .single

end Addition

/-- An expression keeps its type. Every lookup in its derivation is on a way up that has not
changed. -/
theorem HasType.of_addition (hS : S.Coherent) (add : S.Addition S' x) (typed : S.HasType C e T) :
    S'.HasType C e T := by
  induction typed with
  | field near target =>
      exact .field (add.nearest_field hS near)
        ((add.field (add.ne_of_asset near.asset)).mpr target)
  | call near body _ ih =>
      exact .call (add.nearest_binding hS near)
        ((add.binding (add.ne_of_asset near.asset)).mpr body) ih
  | collect _ _ ihl ihr => exact .collect ihl ihr
  | combine _ _ shared ihl ihr => exact .combine ihl ihr (add.nearest_shared hS shared)
  | closure inner below ih =>
      have ne := add.ne_of_asset (inner.context hS)
      exact .closure ih ((add.descends_iff hS ne).mpr below)
  | restrict _ known below ih =>
      have ne := add.ne_of_asset known
      exact .restrict ih ((add.asset ne).mpr known) ((add.descends_iff hS ne).mpr below)

theorem BindingType.of_addition (hS : S.Coherent) (add : S.Addition S' x) {y : String}
    (typed : S.BindingType C y T) : S'.BindingType C y T := by
  obtain ⟨e, body, typed⟩ := typed
  have ne := add.ne_of_asset (typed.context hS)
  exact ⟨e, (add.binding ne).mpr body, typed.of_addition hS add⟩

/-- An expression that leads to a step leads there still. -/
theorem LeadsTo.of_addition (hS : S.Coherent) (add : S.Addition S' x)
    (steps : ∀ {n y}, S.step n y → S.asset n) {ref : StepRef} (leads : S.LeadsTo C e ref) :
    S'.LeadsTo C e ref := by
  induction leads with
  | step above declared =>
      have ne := add.ne_of_descends hS above (steps declared)
      exact .step ((add.descends_iff hS ne).mpr above)
        ((add.step (add.ne_of_asset (steps declared))).mpr declared)
  | collect left _ ih => exact .collect (left.of_addition hS add) ih

end Schema

namespace Registry

variable {R : Registry} {x : AssetEntry} {n : String}

/-- The name of the asset is new, and no asset names it as its parent. -/
structure Unrelated (R : Registry) (x : AssetEntry) : Prop where
  fresh : R.asset? x.name = none
  childless : ∀ a ∈ R.assets.entries, ∀ p, a.parent = some p → p.name ≠ x.name

/-! ### The larger registry -/

theorem asset?_addAsset_of_ne (ne : n ≠ x.name) : (R.addAsset x).asset? n = R.asset? n := by
  have other : Keyed.key x ≠ n := Ne.symm ne
  rw [asset?, addAsset, Table.find?_insert, if_neg other, Option.or_none]
  rfl

/-- Other assets are declared or not as before. -/
theorem hasAsset_addAsset_of_ne (ne : n ≠ x.name) : (R.addAsset x).hasAsset n = R.hasAsset n :=
  congrArg Option.isSome (asset?_addAsset_of_ne ne)

namespace Unrelated

/-- The new asset comes last. -/
theorem entries_addAsset (un : R.Unrelated x) :
    (R.addAsset x).assets.entries = R.assets.entries ++ [x] := by
  rw [addAsset, Table.entries_insert]
  exact if_pos un.fresh

theorem asset?_addAsset_self (un : R.Unrelated x) : (R.addAsset x).asset? x.name = some x := by
  apply asset?_name_of_mem
  rw [un.entries_addAsset]
  exact List.mem_append_right _ List.mem_cons_self

theorem ne_of_mem (un : R.Unrelated x) {a : AssetEntry} (ha : a ∈ R.assets.entries) :
    a.name ≠ x.name := by
  intro same
  have found := asset?_name_of_mem ha
  rw [same, un.fresh] at found
  cases found

/-- Adding an unrelated asset to a registry adds one to its schema. -/
theorem addition (un : R.Unrelated x) : R.schema.Addition (R.addAsset x).schema x.name where
  fresh := by
    rintro ⟨a, ha⟩
    rw [un.fresh] at ha
    cases ha
  childless := by
    rintro n ⟨a, ha, p, hp, same⟩
    exact un.childless a (mem_of_asset? ha) p hp same
  asset := fun ne => by simp only [schema, asset?_addAsset_of_ne ne]
  parent := fun ne => by simp only [schema, asset?_addAsset_of_ne ne]
  field := fun ne => by simp only [schema, asset?_addAsset_of_ne ne]
  binding := fun ne => by simp only [schema, asset?_addAsset_of_ne ne]
  step := fun ne => by simp only [schema, asset?_addAsset_of_ne ne]

/-- The walk upward from any other name is what it was. -/
theorem climb_addAsset (un : R.Unrelated x) (seen : List String) (ne : n ≠ x.name) :
    climb ((R.addAsset x).beyond seen) n = climb (R.beyond seen) n := by
  induction seen, n using climb_induction (R := R) with
  | passed seen n hn =>
      rw [climb_of_passed hn, climb_of_passed (hn.imp_right (asset?_addAsset_of_ne ne).trans)]
  | top seen n a hn ha hp =>
      rw [climb_of_top hn ha hp, climb_of_top hn ((asset?_addAsset_of_ne ne).trans ha) hp]
  | child seen n a p hn ha hp ih =>
      rw [climb_of_child hn ha hp, climb_of_child hn ((asset?_addAsset_of_ne ne).trans ha) hp,
        ih (un.childless a (mem_of_asset? ha) p hp)]

/-- The way up from any other asset is as it was. -/
theorem ancestors_addAsset (un : R.Unrelated x) (ne : n ≠ x.name) :
    (R.addAsset x).ancestors n = R.ancestors n := by
  rw [ancestors_eq, ancestors_eq, un.climb_addAsset [] ne]

/-- Another asset ends in a loop, at an unknown parent or at the top as before. -/
theorem chainEnd?_addAsset (un : R.Unrelated x) (ne : n ≠ x.name) :
    (R.addAsset x).chainEnd? n = R.chainEnd? n := by
  rw [chainEnd?, un.ancestors_addAsset ne]
  rfl

theorem parent?_addAsset (un : R.Unrelated x) (ne : n ≠ x.name) :
    (R.addAsset x).parent? n = R.parent? n := by
  rw [parent?, parent?, asset?_addAsset_of_ne ne]
  cases ha : R.asset? n with
  | none => rfl
  | some a =>
      cases hp : a.parent with
      | none => simp [hp]
      | some p =>
          have other := un.childless a (mem_of_asset? ha) p hp
          simp [hp, asset?_addAsset_of_ne other]

end Unrelated

end Registry

/-- The asset names itself as its parent. -/
def AssetEntry.extendsSelf (a : AssetEntry) : Bool := a.parent.any fun p => p.name = a.name

namespace Registry

variable {R : Registry} {x : AssetEntry} {n : String}

/-! ### Reports -/

/-- The report of a parent that is not declared. -/
def undefinedParent? (R : Registry) (a : AssetEntry) : Option SemanticError :=
  a.parent.bind fun p => if R.hasAsset p.name then none else some (.undefinedAsset p.name p.span)

namespace Unrelated

/-- The only parent that may be missing in addition is that of the new asset. -/
theorem parentErrors_addAsset (un : R.Unrelated x) :
    (R.addAsset x).parentErrors = R.parentErrors ++ ((R.addAsset x).undefinedParent? x).toList := by
  have old : ∀ a ∈ R.assets.entries, (R.addAsset x).undefinedParent? a = R.undefinedParent? a := by
    intro a ha
    apply Option.bind_congr
    intro p hp
    rw [hasAsset_addAsset_of_ne (un.childless a ha p hp)]
  calc
    (R.addAsset x).parentErrors
      = (R.assets.entries ++ [x]).filterMap (R.addAsset x).undefinedParent? := by
        rw [← un.entries_addAsset]
        rfl
    _ = R.assets.entries.filterMap R.undefinedParent? ++
        [x].filterMap (R.addAsset x).undefinedParent? := by
        rw [List.filterMap_append, List.filterMap_congr old]
    _ = R.parentErrors ++ ((R.addAsset x).undefinedParent? x).toList := rfl

/-- The new asset can be broken itself; it breaks no other one. -/
theorem broken_addAsset (un : R.Unrelated x) :
    (R.addAsset x).broken =
      R.broken ++ if (R.addAsset x).isBroken x.name then [x.name] else [] := by
  have old : ∀ n ∈ R.assets.entries.map AssetEntry.name,
      (R.addAsset x).isBroken n = R.isBroken n := by
    intro n hn
    obtain ⟨a, ha, rfl⟩ := List.mem_map.mp hn
    rw [isBroken, isBroken, un.chainEnd?_addAsset (un.ne_of_mem ha)]
  rw [broken, un.entries_addAsset, List.map_append, List.filter_append, List.filter_congr old,
    List.map_singleton, List.filter_singleton, cond_eq_ite]
  rfl

/-- The new asset can be on a loop with itself alone. -/
theorem extends_self_iff (un : R.Unrelated x) :
    (R.addAsset x).schema.Extends x.name x.name ↔ x.extendsSelf = true := by
  have self := un.asset?_addAsset_self
  rw [AssetEntry.extendsSelf, Option.any_eq_true]
  constructor
  · rintro ⟨edge, _⟩
    obtain ⟨p, hp, same⟩ := (schema_parent_iff self).mp edge
    exact ⟨p, hp, by simpa using same⟩
  · rintro ⟨p, hp, same⟩
    exact ⟨(schema_parent_iff self).mpr ⟨p, hp, by simpa using same⟩, x, self⟩

/-- The walk upward from the added asset comes back to it only if it extends itself. -/
theorem chainEnd?_self_iff (un : R.Unrelated x) :
    (R.addAsset x).chainEnd? x.name = some x.name ↔ x.extendsSelf = true := by
  rw [← un.extends_self_iff, ← un.addition.inherits_self_iff R.schema_coherent]
  exact ⟨inherits_of_chainEnd?, chainEnd?_of_loop⟩

/-- On that loop the way up ends at once. -/
theorem ancestors_self (un : R.Unrelated x) (self : x.extendsSelf = true) :
    (R.addAsset x).ancestors x.name = [x] := by
  obtain ⟨p, hp, same⟩ := (Option.any_eq_true _ _).mp self
  have passed : p.name ∈ [x.name] := by simpa using same
  rw [ancestors_eq, climb_of_child List.not_mem_nil un.asset?_addAsset_self hp,
    climb_of_passed (.inl passed)]

/-- The search for loops goes through the old assets as before, and then looks at the new one. -/
theorem loopsAmong_addAsset (un : R.Unrelated x) {reported : List String} {as : List AssetEntry}
    (old : ∀ a ∈ as, a ∈ R.assets.entries) (fresh : x.name ∉ reported) :
    (R.addAsset x).loopsAmong reported (as ++ [x]) =
      R.loopsAmong reported as ++ if x.extendsSelf then [(x, [x])] else [] := by
  induction as generalizing reported with
  | nil =>
      by_cases self : x.extendsSelf = true
      · have found := un.chainEnd?_self_iff.mpr self
        rw [List.nil_append, loopsAmong_cons_of_found [] fresh found, un.ancestors_self self,
          if_pos self]
        rfl
      · have clean := mt un.chainEnd?_self_iff.mp self
        rw [List.nil_append, loopsAmong_cons_of_clean [] clean, if_neg self]
        rfl
  | cons a as ih =>
      obtain ⟨ha, old⟩ := List.forall_mem_cons.mp old
      have ne := un.ne_of_mem ha
      have same := un.chainEnd?_addAsset ne
      rw [List.cons_append]
      by_cases before : a.name ∈ reported
      · rw [loopsAmong_cons_of_reported _ before, loopsAmong_cons_of_reported _ before]
        exact ih old fresh
      · by_cases found : R.chainEnd? a.name = some a.name
        · rw [loopsAmong_cons_of_found _ before (same.trans found),
            loopsAmong_cons_of_found _ before found, un.ancestors_addAsset ne, List.cons_append]
          congr 1
          apply ih old
          -- All members of a loop that was there before are old assets.
          rintro hx
          rcases List.mem_append.mp hx with hx | hx
          · exact fresh hx
          · obtain ⟨b, hb, hbx⟩ := List.mem_map.mp hx
            exact un.ne_of_mem (mem_of_asset? (asset?_of_mem_ancestors hb)) hbx
        · rw [loopsAmong_cons_of_clean _ (same ▸ found), loopsAmong_cons_of_clean _ found]
          exact ih old fresh

/-- At most one loop comes in addition, of length one. -/
theorem loopErrors_addAsset (un : R.Unrelated x) :
    (R.addAsset x).loopErrors = R.loopErrors ++
      if x.extendsSelf then [.extendsLoop x.name [x.name, x.name] x.span] else [] := by
  rw [loopErrors, loops, un.entries_addAsset,
    un.loopsAmong_addAsset (fun _ h => h) List.not_mem_nil, List.map_append]
  congr 1
  split <;> rfl

end Unrelated

/-! ### Everything together -/

/-- Names mean the same on the asset in both registries. -/
structure MeansSame (R Q : Registry) (n : String) : Prop where
  ancestors : Q.ancestors n = R.ancestors n
  strictAncestors : Q.strictAncestors n = R.strictAncestors n
  parent : Q.parent? n = R.parent? n
  subtype : ∀ m, Q.isSubtype n m = R.isSubtype n m
  shared : ∀ m, R.hasAsset m = true → Q.commonAncestor? n m = R.commonAncestor? n m
  field : ∀ y, Q.findField? n y = R.findField? n y
  binding : ∀ y, Q.findVariable? n y = R.findVariable? n y
  step : ∀ y, Q.findStep? n y = R.findStep? n y
  inheritedStep : ∀ y, Q.findInheritedStep? n y = R.findInheritedStep? n y

/-- The registry `Q`, which has the asset `x` behind those of `R`, keeps what holds of these. -/
structure Conserves (R Q : Registry) (x : AssetEntry) : Prop where
  types : ∀ C e T, (R.typeOf [] .empty C e).result = .ok T → (Q.typeOf [] .empty C e).result = .ok T
  steps : ∀ C e ref, (R.stepOf .empty C e).result = .ok ref → (Q.stepOf .empty C e).result = .ok ref
  bindings : ∀ r span T, (R.typeOfVariable [] .empty r span).result = .ok T →
    (Q.typeOfVariable [] .empty r span).result = .ok T
  lookups : ∀ n, R.hasAsset n = true → R.MeansSame Q n
  /-- New is at most that the parent of the added asset is not declared. -/
  parents : Q.parentErrors = R.parentErrors ++ (Q.undefinedParent? x).toList
  /-- New is at most that the added asset extends itself. -/
  loops : Q.loopErrors = R.loopErrors ++
    if x.extendsSelf then [.extendsLoop x.name [x.name, x.name] x.span] else []
  broken : Q.broken = R.broken ++ if Q.isBroken x.name then [x.name] else []

/-- Whatever is asked about another asset is answered as before. -/
theorem Unrelated.meansSame (un : R.Unrelated x) (ne : n ≠ x.name) :
    R.MeansSame (R.addAsset x) n := by
  have same := un.ancestors_addAsset ne
  constructor
  case ancestors => exact same
  case parent => exact un.parent?_addAsset ne
  case strictAncestors => rw [strictAncestors, strictAncestors, same]
  case subtype => exact fun m => by rw [isSubtype, isSubtype, isAncestor, isAncestor, same]
  case shared =>
    intro m known
    have other := un.addition.ne_of_asset (hasAsset_iff.mp known)
    rw [commonAncestor?, commonAncestor?, same, un.ancestors_addAsset other]
  case field => exact fun y => by rw [findField?, findField?, same]
  case binding => exact fun y => by rw [findVariable?, findVariable?, same]
  case step => exact fun y => by rw [findStep?, findStep?, same]
  case inheritedStep =>
    intro y
    rw [findInheritedStep?, findInheritedStep?, strictAncestors, strictAncestors, same]

/-- An asset of a new name that no asset extends changes nothing for the others. -/
theorem conserves_addAsset (un : R.Unrelated x) : R.Conserves (R.addAsset x) x where
  types := by
    intro C e T h
    have typed : R.schema.HasType C e T := (resolve_eq_ok_iff rfl).mp h
    exact (resolve_eq_ok_iff rfl).mpr (typed.of_addition R.schema_coherent un.addition)
  steps := by
    intro C e ref h
    have leads : R.schema.LeadsTo C e ref := (resolve_eq_ok_iff rfl).mp h
    exact (resolve_eq_ok_iff rfl).mpr
      (leads.of_addition R.schema_coherent un.addition fun ⟨a, ha, _⟩ => ⟨a, ha⟩)
  bindings := by
    intro r span T h
    have typed : R.schema.BindingType r.asset r.name T := (resolve_eq_ok_iff rfl).mp h
    exact (resolve_eq_ok_iff rfl).mpr (typed.of_addition R.schema_coherent un.addition)
  lookups := by
    intro n known
    exact un.meansSame (un.addition.ne_of_asset (hasAsset_iff.mp known))
  parents := un.parentErrors_addAsset
  loops := un.loopErrors_addAsset
  broken := un.broken_addAsset

end Registry

/-! ### A kind of host that speaks for itself -/

namespace Lan

/-- It declares the names that a host has under other meanings, and a variable without a type. -/
def router : AssetEntry where
  name := "Router"
  category := "System"
  isAbstract := false
  parent := some (named "Host")
  span := .nowhere
  fields := .insert .empty ⟨"networks", "Router", ⟨.zero, .many⟩, "Routing", .nowhere⟩
  bindings := .insert .empty ⟨"peers", .call (named "peers") .nowhere, .nowhere, none⟩
  steps := .insert .empty (.ofStep access)

theorem unrelated_router : registry.Unrelated router where
  fresh := Option.isNone_iff_eq_none.mp (by decide +kernel)
  childless := by decide +kernel

end Lan

namespace Registry

/-- Adding a router to the network of hosts: the type of an expression is kept, and nothing is
broken. -/
theorem conserves_router :
    Lan.registry.Unrelated Lan.router ∧
      (Lan.registry.typeOf [] .empty "Host" Lan.reachable).result = .ok "Host" ∧
      ((Lan.registry.addAsset Lan.router).typeOf [] .empty "Host" Lan.reachable).result =
        .ok "Host" ∧
      (Lan.registry.addAsset Lan.router).broken = Lan.registry.broken := by
  have typed : (Lan.registry.typeOf [] .empty "Host" Lan.reachable).result = .ok "Host" :=
    (resolve_eq_ok_iff rfl).mpr Lan.hasType_reachable
  have conserves := conserves_addAsset Lan.unrelated_router
  have rooted : (Lan.registry.addAsset Lan.router).isBroken Lan.router.name = false := by
    decide +kernel
  have broken := conserves.broken
  rw [rooted] at broken
  refine ⟨Lan.unrelated_router, typed, conserves.types _ _ _ typed, ?_⟩
  simpa using broken

end Registry

end MetaAttack
