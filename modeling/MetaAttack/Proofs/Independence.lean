import Mathlib.Data.List.Permutation
import MetaAttack.Proofs.Reordering
import MetaAttack.Proofs.Verdict

/-!
# Independence of order

Where nothing is included, the order in which a specification declares things decides neither
whether it has errors nor, where it has none, what its analysis yields.

## Implementation notes

First-wins registration and the order of resolving matter in the presence of errors only. Without
them, the registry holds all declarations, and each result is the only one that the typing relation
allows.
-/

namespace MetaAttack

/-! ### Analyses that agree -/

/-- The assets are the same up to the order of their fields, variables and steps. -/
structure AssetEntry.Alike (a b : AssetEntry) : Prop where
  fields : a.fields.entries.Perm b.fields.entries
  bindings : a.bindings.entries.Perm b.bindings.entries
  steps : a.steps.entries.Perm b.steps.entries
  rest : b = { a with fields := b.fields, bindings := b.bindings, steps := b.steps }

/-- The analyses have the same assets, with the same results, and the same warnings, each in any
order. -/
structure Analysis.Agrees (A B : Analysis) : Prop where
  assets : Matched AssetEntry.Alike A.registry.assets.entries B.registry.assets.entries
  warnings : A.warnings.Perm B.warnings

/-- Being alike goes both ways. -/
theorem AssetEntry.Alike.symm {a b : AssetEntry} (h : a.Alike b) : b.Alike a where
  fields := h.fields.symm
  bindings := h.bindings.symm
  steps := h.steps.symm
  rest := by rw [h.rest]

namespace Registry

variable {R Q : Registry}

/-! ### Warnings -/

/-- An asset that is extended is extended in the other order, too. -/
theorem extended_of_matched (h : Matched AssetEntry.Alike R.assets.entries Q.assets.entries)
    {n : String} (extended : R.assets.entries.any fun b => b.parent.any fun p => p.name = n) :
    Q.assets.entries.any fun b => b.parent.any fun p => p.name = n := by
  obtain ⟨a, ha, parent⟩ := List.any_eq_true.mp extended
  obtain ⟨b, hb, hab⟩ := h.exists_mem ha
  apply List.any_eq_true.mpr
  refine ⟨b, hb, ?_⟩
  rw [hab.rest]
  exact parent

/-- The same assets are never extended. -/
theorem abstractWarnings_perm (h : Matched AssetEntry.Alike R.assets.entries Q.assets.entries) :
    R.abstractWarnings.Perm Q.abstractWarnings := by
  have h' := h.symm fun _ _ => AssetEntry.Alike.symm
  apply Matched.map_perm (r := AssetEntry.Alike)
  · apply h.filter
    intro a b hab
    have extended : (R.assets.entries.any fun c => c.parent.any fun p => p.name = a.name) =
        Q.assets.entries.any fun c => c.parent.any fun p => p.name = a.name :=
      Bool.eq_iff_iff.mpr ⟨extended_of_matched h, extended_of_matched h'⟩
    rw [hab.rest, extended]
  · intro a b hab
    rw [hab.rest]

theorem classificationWarnings_perm
    (h : Matched AssetEntry.Alike R.assets.entries Q.assets.entries) :
    R.classificationWarnings.Perm Q.classificationWarnings := by
  apply Matched.flatMap_perm h
  intro a b hab
  have name : b.name = a.name := by rw [hab.rest]
  rw [name]
  exact hab.steps.flatMap_right _

/-! ### Results -/

/-- The type of a variable is read off what is remembered of it. -/
theorem typeVariable_congr {p q : Progress} {n : String} {v : VariableEntry}
    (h : ∀ T, p.memo.find? ⟨n, v.name⟩ = some (.typed T) ↔
      q.memo.find? ⟨n, v.name⟩ = some (.typed T)) : typeVariable p n v = typeVariable q n v := by
  unfold typeVariable
  split
  · next T hp => rw [(h T).mp hp]
  · next hp =>
    split
    · next T hq => exact absurd ((h T).mpr hq) (hp T)
    · rfl

variable {a b : AssetEntry}

/-- A variable of a rooted asset has one type by its schema, so the order of declarations cannot
matter. -/
theorem typeVariable_eq (same : R.schema = Q.schema) (ha : a ∈ R.assets.entries)
    (hb : b ∈ Q.assets.entries) (name : b.name = a.name) (root : R.schema.Rooted a.name)
    {v : VariableEntry} (hva : v ∈ a.bindings.entries) (hvb : v ∈ b.bindings.entries) :
    typeVariable R.resolveAll a.name v = typeVariable Q.resolveAll b.name v := by
  have root' : Q.schema.Rooted b.name := by
    rw [← same, name]
    exact root
  have found := find?_resolveAll_iff ha hva root
  have found' := find?_resolveAll_iff hb hvb root'
  rw [name] at found' ⊢
  apply typeVariable_congr
  intro T
  rw [found T, found' T, same]

/-- What a step requires and reaches is decided by the schema. -/
theorem targetStep_eq (same : R.schema = Q.schema) (ha : a ∈ R.assets.entries)
    (hb : b ∈ Q.assets.entries) (name : b.name = a.name) (root : R.schema.Rooted a.name)
    {s : StepEntry} (hsa : s ∈ a.steps.entries) (hsb : s ∈ b.steps.entries) :
    targetStep R.resolveAll a.name s = targetStep Q.resolveAll b.name s := by
  have root' : Q.schema.Rooted b.name := by
    rw [← same, name]
    exact root
  obtain ⟨t, of, found⟩ := targetStep_of_rooted ha hsa root
  obtain ⟨u, of', found'⟩ := targetStep_of_rooted hb hsb root'
  rw [← same, name] at of'
  rw [found, found', of.unique R.schema_coherent of']

/-- Where all chains have a root, alike assets get alike results. -/
theorem matched_withProgress (h : Matched AssetEntry.Alike R.assets.entries Q.assets.entries)
    (same : R.schema = Q.schema) (rooted : ∀ n, R.schema.asset n → R.schema.Rooted n) :
    Matched AssetEntry.Alike (R.withProgress R.resolveAll).assets.entries
      (Q.withProgress Q.resolveAll).assets.entries := by
  apply h.map
  intro a ha b hb hab
  have name : b.name = a.name := by rw [hab.rest]
  have root : R.schema.Rooted a.name := rooted a.name ⟨a, asset?_name_of_mem ha⟩
  constructor
  case fields => exact hab.fields
  case bindings =>
    calc (a.withResults R.resolveAll).bindings.entries
      _ = a.bindings.entries.map (typeVariable Q.resolveAll b.name) :=
        List.map_congr_left fun v hv =>
          typeVariable_eq same ha hb name root hv (hab.bindings.mem_iff.mp hv)
      List.Perm _ (b.withResults Q.resolveAll).bindings.entries := hab.bindings.map _
  case steps =>
    calc (a.withResults R.resolveAll).steps.entries
      _ = a.steps.entries.map (targetStep Q.resolveAll b.name) :=
        List.map_congr_left fun s hs =>
          targetStep_eq same ha hb name root hs (hab.steps.mem_iff.mp hs)
      List.Perm _ (b.withResults Q.resolveAll).steps.entries := hab.steps.map _
  case rest =>
    let typed := (b.withResults Q.resolveAll).bindings
    let targeted := (b.withResults Q.resolveAll).steps
    exact congrArg (fun c => { c with fields := b.fields, bindings := typed, steps := targeted })
      hab.rest

end Registry

/-! ### Reordered entities -/

namespace Reordered

variable {es fs : List Entity}

/-- The same fields are declared, in another order. -/
theorem fieldsOf (h : Reordered es fs) : (fieldsOf es).Perm (fieldsOf fs) := by
  apply h.associations.flatMap_perm
  intro a b hab
  rw [hab.rest]
  exact .refl _

/-- The fields of reordered associations make reordered assets alike. -/
theorem alike_widen (h : Reordered es fs) (w : WellFormed es) {x y : String × Asset}
    (hx : x ∈ MetaAttack.assets es) (hy : y ∈ MetaAttack.assets fs) (category : x.1 = y.1)
    (hxy : x.2.Reordered y.2) :
    AssetEntry.Alike ((AssetEntry.ofAsset x.1 x.2).widen (MetaAttack.fieldsOf es))
      ((AssetEntry.ofAsset y.1 y.2).widen (MetaAttack.fieldsOf fs)) := by
  have w' := h.wellFormed w
  have name : y.2.name = x.2.name := by rw [hxy.rest]
  constructor
  case fields =>
    have hfound := w.names.asset?_eq_some_iff.mpr ⟨x, hx, rfl, rfl⟩
    have hfound' := w'.names.asset?_eq_some_iff.mpr ⟨y, hy, rfl, rfl⟩
    rw [w.fields.entries_widen w.names hfound, w'.fields.entries_widen w'.names hfound']
    change (((MetaAttack.fieldsOf es).filter fun f => f.owner = x.2.name.name).map _).Perm
      (((MetaAttack.fieldsOf fs).filter fun f => f.owner = y.2.name.name).map _)
    rw [name]
    exact (h.fieldsOf.filter _).map _
  case bindings =>
    change (AssetEntry.ofAsset x.1 x.2).bindings.entries.Perm
      (AssetEntry.ofAsset y.1 y.2).bindings.entries
    rw [AssetEntry.bindings_ofAsset (w.names.members x hx),
      AssetEntry.bindings_ofAsset (w'.names.members y hy)]
    exact hxy.bindings.map _
  case steps =>
    change (AssetEntry.ofAsset x.1 x.2).steps.entries.Perm
      (AssetEntry.ofAsset y.1 y.2).steps.entries
    rw [AssetEntry.steps_ofAsset (w.names.members x hx),
      AssetEntry.steps_ofAsset (w'.names.members y hy)]
    apply hxy.steps.map_perm
    intro s t hst
    rw [hst.rest]
    rfl
  case rest =>
    rw [← category, hxy.rest]
    rfl

/-- Where the rules are kept all fields are placed, so assets get the same ones. -/
theorem matched_withFields (h : Reordered es fs) (w : WellFormed es) :
    Matched AssetEntry.Alike (Declared.of es).registry.withFields.1.assets.entries
      (Declared.of fs).registry.withFields.1.assets.entries := by
  have w' := h.wellFormed w
  rw [w.fields.withFields_fst w.names, w'.fields.withFields_fst w'.names]
  change Matched _ ((Declared.of es).registry.assets.entries.map _)
    ((Declared.of fs).registry.assets.entries.map _)
  rw [w.names.assets_entries, w'.names.assets_entries, List.map_map, List.map_map]
  apply h.assets.map
  intro x hx y hy hxy
  exact h.alike_widen w hx hy hxy.1 hxy.2

/-- Where reordered entities are well formed, their analyses agree. -/
theorem agrees (h : Reordered es fs) (w : WellFormed es) :
    (Analysis.ofDeclared (.of es)).Agrees (Analysis.ofDeclared (.of fs)) := by
  have w' := h.wellFormed w
  have alike := h.matched_withFields w
  have rooted := w.fields.rooted_withFields w.names w.grounded
  have same : (Declared.of es).registry.withFields.1.schema =
      (Declared.of fs).registry.withFields.1.schema := by
    rw [w.fields.schema_withFields w.names, w'.fields.schema_withFields w'.names, h.schemaOf_eq]
  constructor
  case assets => exact Registry.matched_withProgress alike same rooted
  case warnings =>
    exact (Registry.abstractWarnings_perm alike).append (Registry.classificationWarnings_perm alike)

/-- Whether the rules are kept does not depend on the order. -/
theorem hasError_eq (h : Reordered es fs) :
    (Analysis.ofDeclared (.of es)).hasError = (Analysis.ofDeclared (.of fs)).hasError := by
  by_cases w : WellFormed es
  · have w' := h.wellFormed w
    rw [hasError_ofDeclared_eq_false_iff.mpr w, hasError_ofDeclared_eq_false_iff.mpr w']
  · have w' : ¬ WellFormed fs := fun w' => w (h.symm.wellFormed w')
    rw [← hasError_ofDeclared_eq_false_iff, Bool.not_eq_false] at w w'
    rw [w, w']

end Reordered

/-! ### Specifications that include nothing -/

/-- A walk over declarations only yields them. -/
theorem walk_declarations (l : Loader) (visited : List Path) (dir : Path) (ds : List Declaration) :
    walk l visited (ds.map fun d => (dir, .declaration d)) = ⟨ds, visited, [], none⟩ := by
  induction ds with
  | nil => rw [List.map_nil, walk]
  | cons d ds ih =>
      rw [List.map_cons, walk, ih]

namespace Spec

variable {s t : Spec}

/-- The declarations among the items. -/
def declarations (s : Spec) : List Declaration :=
  s.items.flatMap fun
    | .declaration d => [d]
    | .inclusion _ => []

/-- Without includes, the items are the declarations. -/
theorem items_of_includes (alone : s.includes = []) :
    s.items = s.declarations.map .declaration := by
  obtain ⟨items⟩ := s
  change items = (items.flatMap _).map _
  induction items with
  | nil => rfl
  | cons i items ih =>
      cases i with
      | declaration d => exact congrArg _ (ih alone)
      | inclusion i => cases alone

/-- Taking in such a specification is declaring its declarations. -/
theorem feed_of_includes (alone : s.includes = []) :
    Analyzer.empty.feed .none .empty s =
      (⟨s.declarations.foldl Declared.declare .empty, [.empty]⟩,
        ⟨s.declarations, [.empty], [], none⟩) := by
  have walked : walk .none [.empty] (s.items.map fun item => (Path.empty.directory, item)) =
      ⟨s.declarations, [.empty], [], none⟩ := by
    rw [items_of_includes alone, List.map_map]
    exact walk_declarations .none [.empty] Path.empty.directory s.declarations
  change (let w := walk .none [.empty] (s.items.map fun item => (Path.empty.directory, item))
    ((⟨w.declarations.foldl Declared.declare .empty, w.visited⟩, w) : Analyzer × Walk)) = _
  rw [walked]

/-- A specification that includes nothing is analyzed by what it declares itself. -/
theorem analyze_of_includes (alone : s.includes = []) :
    s.analyze = .ok (.ofDeclared (.of (s.declarations.flatMap Declaration.entities))) := by
  rw [analyze, analyzeAt, feed_of_includes alone, Declared.foldl_declare]
  rfl

/-- Reordering brings in no include. -/
theorem Reordered.includes (h : s.Reordered t) (alone : s.includes = []) : t.includes = [] := by
  have perm : s.includes.Perm t.includes := by
    rw [Spec.includes, Spec.includes, List.filterMap_eq_flatMap_toList,
      List.filterMap_eq_flatMap_toList]
    apply h.flatMap_perm
    intro i j hij
    cases hij <;> exact .refl _
  rw [alone] at perm
  exact perm.nil_eq.symm

/-- Without includes, the declarations are reordered at every level. -/
theorem Reordered.declarations (h : s.Reordered t) :
    Matched Declaration.Reordered s.declarations t.declarations := by
  apply h.flatMap
  intro i j hij
  cases hij with
  | declaration h => exact .cons h .zero
  | inclusion i => exact .zero

/-- The order of what a specification without includes declares decides neither whether its analysis
has an error nor, where it has none, what the results and the warnings are. -/
theorem analyze_of_reordered (h : s.Reordered t) (alone : s.includes = []) :
    ∃ A B, s.analyze = .ok A ∧ t.analyze = .ok B ∧ A.hasError = B.hasError ∧
      (A.hasError = false → A.Agrees B) := by
  have entities : MetaAttack.Reordered (s.declarations.flatMap Declaration.entities)
      (t.declarations.flatMap Declaration.entities) :=
    h.declarations.flatMap fun d e hde => hde.entities
  refine ⟨_, _, analyze_of_includes alone, analyze_of_includes (h.includes alone),
    entities.hasError_eq, ?_⟩
  intro noError
  exact entities.agrees (hasError_ofDeclared_eq_false_iff.mp noError)

end Spec

/-! ### A specification in two orders -/

namespace Lan

/-- A name, wherever it stands. -/
def named (name : String) : Ident := ⟨name, .nowhere⟩

/-- A define. -/
def declared (key value : String) : Item :=
  .declaration (.define ⟨named key, value, .nowhere⟩)

/-- A bare name as an expression. -/
def field (name : String) : Expr := .field (named name) .nowhere

/-- The asset that hosts are connected to. -/
def network : Asset := ⟨false, named "Network", none, [], [], [], .nowhere⟩

/-- The step that hosts and networks have. -/
def access : AttackStep :=
  ⟨.anyOf, named "access", [], none, none, [], none, none, .nowhere⟩

/-- Connecting leads to the access to every peer. -/
def connect : AttackStep :=
  ⟨.anyOf, named "connect", [], none, none, [], none,
    some ⟨false, [.collect (.call (named "peers") .nowhere) (field "access") .nowhere], .nowhere⟩,
    .nowhere⟩

/-- The peers of a host are the hosts of its networks. -/
def host (steps : List AttackStep) : Asset :=
  ⟨false, named "Host", none, [], steps,
    [⟨named "peers", .collect (field "networks") (field "hosts") .nowhere, .nowhere⟩], .nowhere⟩

def assets (as : List Asset) : Item :=
  .declaration (.category ⟨named "System", [], as, .nowhere⟩)

/-- The association between hosts and networks. -/
def attachment : Item :=
  .declaration (.associations [⟨named "Network", named "networks", ⟨.zero, .many⟩,
    named "Attachment", ⟨.zero, .many⟩, named "hosts", named "Host", [], .nowhere⟩])

/-- The specification in one order. -/
def spec : Spec where
  items := [declared "id" "lan", declared "version" "1.0.0",
    assets [network, host [connect, access]], attachment]

/-- The specification in another order, at every level. -/
def reversed : Spec where
  items := [attachment, assets [host [access, connect], network], declared "version" "1.0.0",
    declared "id" "lan"]

/-- Both are one specification in two orders. -/
theorem reordered : spec.Reordered reversed := by
  have step : ∀ s : AttackStep, s.Reordered s := fun s => ⟨.refl _, rfl⟩
  have steps : Matched AttackStep.Reordered [connect, access] [access, connect] :=
    (Matched.cons (step connect) (.cons (step access) .zero)).trans_perm (.swap ..)
  have hosts : (host [connect, access]).Reordered (host [access, connect]) :=
    ⟨.refl _, steps, .refl _, rfl⟩
  have listed : Matched Asset.Reordered [network, host [connect, access]]
      [host [access, connect], network] :=
    (Matched.cons ⟨.refl _, .zero, .refl _, rfl⟩ (.cons hosts .zero)).trans_perm (.swap ..)
  have items : Matched Item.Reordered spec.items reversed.items.reverse :=
    .cons (.declaration (.define _)) (.cons (.declaration (.define _))
      (.cons (.declaration (.category ⟨.refl _, listed, rfl⟩))
        (.cons (.declaration (.associations (.cons ⟨.refl _, rfl⟩ .zero))) .zero)))
  exact items.trans_perm (List.reverse_perm _)

/-- The specification keeps all rules. -/
theorem hasError_eq_false :
    (Analysis.ofDeclared (.of (spec.declarations.flatMap Declaration.entities))).hasError =
      false := by
  rw [Analysis.hasError, Bool.not_eq_false', List.isEmpty_iff, Analysis.errors_ofDeclared,
    List.append_eq_nil_iff]
  constructor
  · exact List.isEmpty_iff.mp (by decide +kernel)
  · exact List.isEmpty_iff.mp (by cbv)

end Lan

namespace Spec

/-- Both orders are analysed to results that agree. -/
theorem analyze_lan :
    ∃ A B, Lan.spec.analyze = .ok A ∧ Lan.reversed.analyze = .ok B ∧ A.hasError = false ∧
      A.Agrees B := by
  obtain ⟨A, B, hA, hB, _, agrees⟩ := analyze_of_reordered Lan.reordered rfl
  obtain rfl := Except.ok.inj ((analyze_of_includes rfl).symm.trans hA)
  exact ⟨_, B, hA, hB, Lan.hasError_eq_false, agrees Lan.hasError_eq_false⟩

end Spec

end MetaAttack
