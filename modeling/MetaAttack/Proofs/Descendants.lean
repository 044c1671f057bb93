import MetaAttack.Proofs.Independence
import MetaAttack.Proofs.Inheritance
import MetaAttack.Proofs.Resolving

/-!
# Expressions in descendants

An expression that has a type in the context of an asset has the same type in the context of every
descendant, and one that ends in an attack step ends in the same step there. Only a bare step name
is looked up anew, on the descendant itself. What this rests on is that no field and no variable is
declared again below: a name then means the same from wherever on the chain it is looked up.

## Implementation notes

On a loop of extensions an asset inherits from itself. `Schema.Unshadowed` compares an asset with
the others on its chain only, so it admits a loop whose members declare different names.
-/

namespace MetaAttack

open Relation

namespace Schema

variable {S : Schema} {P : String → Prop} {A B C D T : String} {e : Expr}

/-- No asset declares a field or a variable under a name that another asset it inherits from
declares. -/
structure Unshadowed (S : Schema) : Prop where
  field : ∀ {n m x t u}, S.Inherits n m → n ≠ m → S.field n x t → ¬ S.field m x u
  binding : ∀ {n m x d e}, S.Inherits n m → n ≠ m → S.binding n x d → ¬ S.binding m x e

/-- Where nothing on the way to the nearest asset with a property has it too, that asset is nearest
from further below as well. -/
theorem Nearest.of_descends (hS : S.Coherent) (alone : ∀ n, S.Inherits n D → n ≠ D → ¬ P n)
    (near : S.Nearest P A D) (below : S.Descends B A) : S.Nearest P B D := by
  induction below using ReflTransGen.head_induction_on with
  | refl => exact near
  | @head n p edge _ ih =>
      have inherits : S.Inherits n D :=
        (inherits_iff_of_parent hS edge.1).mpr ⟨ih.descends hS, near.asset⟩
      by_cases same : n = D
      · subst same
        exact .here near.asset near.holds
      · exact .above edge.1 (alone n inherits same) ih

/-- A type is inherited: every lookup from below has the nearest hit that it has from above. -/
theorem HasType.of_descends (hS : S.Coherent) (un : S.Unshadowed) (typed : S.HasType A e T)
    (below : S.Descends B A) : S.HasType B e T := by
  induction typed generalizing B with
  | field near target =>
      refine .field (near.of_descends hS ?_ below) target
      rintro n inherits other ⟨_, declared⟩
      exact un.field inherits other declared target
  | call near body typed _ =>
      refine .call (near.of_descends hS ?_ below) body typed
      rintro n inherits other ⟨_, declared⟩
      exact un.binding inherits other declared body
  | collect _ right ihl _ => exact .collect (ihl below) right
  | combine _ _ shared ihl ihr => exact .combine (ihl below) (ihr below) shared
  | closure _ above ih => exact .closure (ih below) (below.trans above)
  | restrict _ known above ih => exact .restrict (ih below) known above

end Schema

/-- The attack step that an expression ends in for the asset `B`, where it ends in `ref` for an
ancestor: a bare name is looked up on the asset itself. -/
def Expr.stepFrom (B : String) (ref : StepRef) : Expr → StepRef
  | .field name _ => ⟨B, name.name⟩
  | _ => ref

/-- Only where a bare name is looked up does the step become one of the lower asset. -/
theorem Schema.LeadsTo.of_descends {S : Schema} (hS : S.Coherent) (un : S.Unshadowed)
    {A B : String} {e : Expr} {ref : StepRef} (leads : S.LeadsTo A e ref)
    (below : S.Descends B A) : S.LeadsTo B e (e.stepFrom B ref) := by
  cases leads with
  | step above declared => exact .step (below.trans above) declared
  | collect left right => exact .collect (left.of_descends hS un below) right

namespace Registry

variable {R : Registry} {A B : String}

/-- Where every chain has a root, the checks across assets find every name that is declared
again. -/
theorem unshadowed_of_errors (rooted : ∀ a ∈ R.assets.entries, R.isBroken a.name = false)
    (fields : R.inheritedFieldErrors = []) (again : R.inheritedVariableErrors = []) :
    R.schema.Unshadowed := by
  have root : ∀ {n}, R.schema.asset n → R.schema.Rooted n := by
    rintro n ⟨a, ha⟩
    obtain rfl := name_of_asset? ha
    have mem : a ∈ R.rooted :=
      List.mem_filter.mpr ⟨mem_of_asset? ha, by simp [rooted a (mem_of_asset? ha)]⟩
    exact (mem_rooted_iff.mp mem).2
  constructor
  · intro n m x t u path _
    exact inheritedFieldErrors_eq_nil_iff.mp fields n (root (path.asset R.schema_coherent)) m x t u
      path
  · intro n m x d e path _
    exact inheritedVariableErrors_eq_nil_iff.mp again n (root (path.asset R.schema_coherent)) m
      x d e path

/-- Whatever resolves in an asset resolves in every descendant, to the same result; only a bare step
name means the step of the descendant. -/
theorem resolves_of_descends (un : R.schema.Unshadowed) (below : R.schema.Descends B A) :
    (∀ e T, (R.typeOf [] .empty A e).result = .ok T → (R.typeOf [] .empty B e).result = .ok T) ∧
      ∀ e ref, (R.stepOf .empty A e).result = .ok ref →
        (R.stepOf .empty B e).result = .ok (e.stepFrom B ref) := by
  constructor
  · intro e T h
    have typed : R.schema.HasType A e T := (resolve_eq_ok_iff rfl).mp h
    exact (resolve_eq_ok_iff rfl).mpr (typed.of_descends R.schema_coherent un below)
  · intro e ref h
    have leads : R.schema.LeadsTo A e ref := (resolve_eq_ok_iff rfl).mp h
    exact (resolve_eq_ok_iff rfl).mpr (leads.of_descends R.schema_coherent un below)

end Registry

/-! ### A host and a kind of host -/

namespace Lan

/-- A kind of host that declares nothing itself. -/
def server : Asset := ⟨false, named "Server", some (named "Host"), [], [], [], .nowhere⟩

/-- The network of hosts, with servers among them. -/
def withServer : Spec where
  items := [assets [network, host [connect, access], server], attachment]

/-- What it declares, with the fields of its associations. -/
def registry : Registry :=
  (withServer.declarations.foldl Declared.declare .empty).registry.withFields.1

/-- The hosts that are reached as peers and over the networks, any number of times. -/
def reachable : Expr :=
  .closure (.restrict (.combine .union (.call (named "peers") .nowhere)
    (.collect (field "networks") (field "hosts") .nowhere) .nowhere) (named "Host") .nowhere)
    .nowhere

/-- Servers declare nothing under a name that they inherit. -/
theorem unshadowed : registry.schema.Unshadowed :=
  Registry.unshadowed_of_errors (by decide +kernel) (List.isEmpty_iff.mp (by decide +kernel))
    (List.isEmpty_iff.mp (by decide +kernel))

/-- The hosts that can be reached from a host. -/
theorem hasType_reachable : registry.schema.HasType "Host" reachable "Host" := by
  have declared : registry.schema.binding "Host" "peers"
      (.collect (field "networks") (field "hosts") .nowhere) := ⟨_, rfl, _, rfl, rfl⟩
  have known : registry.schema.asset "Host" := ⟨_, rfl⟩
  have hosts : registry.schema.HasType "Host"
      (.collect (field "networks") (field "hosts") .nowhere) "Host" :=
    (Registry.resolve_eq_ok_iff (q := .type .start "Host" _) rfl).mp (by cbv)
  have peers : registry.schema.HasType "Host" (.call (named "peers") .nowhere) "Host" :=
    .call (.here known ⟨_, declared⟩) declared hosts
  exact .closure (.restrict (.combine peers hosts (.here known .refl)) known .refl) .refl

end Lan

namespace Registry

/-- A server inherits the variable and the field of hosts, so the hosts that can be reached from it
are found as from a host. A bare step name means the step of the server. -/
theorem resolves_server :
    Lan.registry.schema.Unshadowed ∧ Lan.registry.schema.Descends "Server" "Host" ∧
      (Lan.registry.typeOf [] .empty "Host" Lan.reachable).result = .ok "Host" ∧
      (Lan.registry.typeOf [] .empty "Server" Lan.reachable).result = .ok "Host" ∧
      (Lan.registry.stepOf .empty "Host" (Lan.field "access")).result = .ok ⟨"Host", "access"⟩ ∧
      (Lan.registry.stepOf .empty "Server" (Lan.field "access")).result =
        .ok ⟨"Server", "access"⟩ := by
  have below : Lan.registry.schema.Descends "Server" "Host" :=
    (isSubtype_iff.mp (by decide +kernel)).1
  have typed : (Lan.registry.typeOf [] .empty "Host" Lan.reachable).result = .ok "Host" :=
    (resolve_eq_ok_iff rfl).mpr Lan.hasType_reachable
  have step : (Lan.registry.stepOf .empty "Host" (Lan.field "access")).result =
      .ok ⟨"Host", "access"⟩ := by cbv
  have inherited := resolves_of_descends Lan.unshadowed below
  exact ⟨Lan.unshadowed, below, typed, inherited.1 _ _ typed, step, inherited.2 _ _ step⟩

end Registry

end MetaAttack
