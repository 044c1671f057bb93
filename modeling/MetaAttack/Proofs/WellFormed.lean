import MetaAttack.Proofs.Entities
import MetaAttack.Proofs.HasType
import MetaAttack.Proofs.StepRules
import MetaAttack.Proofs.Version

/-!
# Well-formed specifications

The rules of the language, on what a specification declares. They mention neither a registry nor any
order of the declarations: names are distinct, and all else is a property of the facts declared.

## Implementation notes

The rules on inheritance, fields and expressions speak of the schema of the declarations. It is
coherent only where the rules on names hold, which is why these come first.
-/

namespace MetaAttack

namespace Association

/-- The association gives the asset a field of the name that leads to the third asset. -/
def Gives (a : Association) (n x t : String) : Prop :=
  (a.leftAsset.name = n ∧ a.rightField.name = x ∧ a.rightAsset.name = t) ∨
    (a.rightAsset.name = n ∧ a.leftField.name = x ∧ a.leftAsset.name = t)

/-- The two assets, each with the name of the field that it is given. -/
def fieldKeys (a : Association) : List (String × String) :=
  [(a.leftAsset.name, a.rightField.name), (a.rightAsset.name, a.leftField.name)]

end Association

/-- An asset of the name declares the step. -/
def DeclaresStep (es : List Entity) (n : String) (s : AttackStep) : Prop :=
  ∃ x ∈ assets es, x.2.name.name = n ∧ s ∈ x.2.steps

/-- The facts that entities declare. -/
def schemaOf (es : List Entity) : Schema where
  asset n := ∃ x ∈ assets es, x.2.name.name = n
  parent n p := ∃ x ∈ assets es, x.2.name.name = n ∧ ∃ i, x.2.parent = some i ∧ i.name = p
  field n y t := ∃ a ∈ associations es, a.Gives n y t
  binding n y e := ∃ x ∈ assets es, x.2.name.name = n ∧
    ∃ v ∈ x.2.bindings, v.name.name = y ∧ v.expr = e
  step n y := ∃ s, DeclaresStep es n s ∧ s.name.name = y

variable (es : List Entity)

/-- No name is declared twice where it has to be one of its own. -/
structure NamesDistinct : Prop where
  defines : ((defines es).map fun d => d.key.name).Nodup
  assets : ((assets es).map fun x => x.2.name.name).Nodup
  members : ∀ x ∈ MetaAttack.assets es, x.2.Distinct

/-- Both required defines are there, and the version is one. -/
structure Identified : Prop where
  id : ∃ d ∈ defines es, d.key.name = "id" ∧ d.value ≠ ""
  version : ∃ d ∈ defines es, d.key.name = "version" ∧ d.value ≠ "" ∧ IsVersion d.value

/-- Every parent is declared, and no asset extends itself. -/
structure Grounded : Prop where
  parents : ∀ n p, (schemaOf es).parent n p → (schemaOf es).asset p
  acyclic : ∀ n, ¬ (schemaOf es).Inherits n n

/-- Associations join declared assets, and no asset is given a field twice, or one with the name of
a step of it. -/
structure FieldsPlaced : Prop where
  ends : ∀ a ∈ associations es,
    (schemaOf es).asset a.leftAsset.name ∧ (schemaOf es).asset a.rightAsset.name
  distinct : ((associations es).flatMap Association.fieldKeys).Nodup
  notStep : ∀ n x t, (schemaOf es).field n x t → ¬ (schemaOf es).step n x

/-- No field is given again below. -/
structure FieldsSound : Prop extends FieldsPlaced es where
  notInherited : ∀ n m x t u, (schemaOf es).Inherits n m → (schemaOf es).field n x t →
    ¬ (schemaOf es).field m x u

/-- Steps are legal, add only to inherited ones, and keep the kind of those that they override. -/
structure StepsSound : Prop where
  legal : ∀ n s, DeclaresStep es n s → s.Legal
  appends : ∀ n s, DeclaresStep es n s → s.reaches.any Reaches.appends →
    ∃ m, (schemaOf es).Inherits n m ∧ (schemaOf es).step m s.name.name
  kinds : ∀ n m s t, (schemaOf es).Inherits n m → DeclaresStep es n s → DeclaresStep es m t →
    s.name.name = t.name.name → s.kind = t.kind

/-- Variables are not declared again below, and every expression means something. -/
structure ExpressionsSound : Prop where
  notInherited : ∀ n m x d e, (schemaOf es).Inherits n m → (schemaOf es).binding n x d →
    ¬ (schemaOf es).binding m x e
  bindings : ∀ n x e, (schemaOf es).binding n x e → ∃ T, (schemaOf es).HasType n e T
  requires : ∀ n s r, DeclaresStep es n s → s.requires = some r →
    ∀ e ∈ r.exprs, ∃ T, (schemaOf es).HasType n e T
  reaches : ∀ n s r, DeclaresStep es n s → s.reaches = some r →
    ∀ e ∈ r.exprs, ∃ ref, (schemaOf es).LeadsTo n e ref

/-- The declarations follow all rules. -/
structure WellFormed : Prop where
  names : NamesDistinct es
  remarks : ∀ rs ∈ es.flatMap Entity.remarkLists, (rs.map fun r => r.key.name).Nodup
  identified : Identified es
  grounded : Grounded es
  fields : FieldsSound es
  steps : StepsSound es
  expressions : ExpressionsSound es

end MetaAttack
