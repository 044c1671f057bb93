import MetaAttack.Check.Fields
import MetaAttack.Typing.Resolver

/-!
# Resolving a registry

All variables and all clauses of the assets that have a root are resolved with one memo, the
variables first. The results go into the registry; an expression that does not resolve is an error
of its clause.
-/

namespace MetaAttack

/-- Resolves expressions in order. The results of those that resolve are kept, and each of the
others is reported. -/
def resolveEach {α : Type} (resolve : Memo → Expr → Resolution α × Memo)
    (report : List ResolveError → SemanticError) :
    Memo → List Expr → Memo × List α × List SemanticError
  | m, [] => (m, [], [])
  | m, e :: es =>
      let (result, m) := resolve m e
      let (m, found, errors) := resolveEach resolve report m es
      match result with
      | .ok t => (m, t :: found, errors)
      | .error causes => (m, found, report causes :: errors)

/-- What the clauses of a step lead to. -/
structure StepTargets where
  step : StepRef
  required : List String
  reached : List StepRef
deriving DecidableEq, Repr

/-- The kind of a reaches clause. -/
def Reaches.clause (r : Reaches) : Clause := if r.appends then .appends else .reaches

/-- What has come of resolving so far. -/
structure Progress where
  memo : Memo
  targets : List StepTargets
  errors : List SemanticError

namespace Registry

/-- Works out the variables of an asset. -/
def resolveVariables (R : Registry) (asset : String) (p : Progress) :
    List VariableEntry → Progress
  | [] => p
  | v :: vs =>
      let a := R.typeOfVariable [] p.memo ⟨asset, v.name⟩ v.span
      let errors :=
        match a.result with
        | .ok _ => []
        | .error causes => causes.map .resolve
      R.resolveVariables asset ⟨a.memo, p.targets, p.errors ++ errors⟩ vs

/-- Resolves the clauses of a step of an asset. -/
def resolveStep (R : Registry) (asset : String) (p : Progress) (s : StepEntry) : Progress :=
  let (m, required, requiresErrors) :=
    match s.requires with
    | none => (p.memo, [], [])
    | some c =>
        resolveEach (fun m e => let a := R.typeOf [] m asset e; (a.result, a.memo))
          (.unresolved · .requires c.span) p.memo c.exprs
  let (m, reached, reachesErrors) :=
    match s.reaches with
    | none => (m, [], [])
    | some c =>
        resolveEach (fun m e => let a := R.stepOf m asset e; (a.result, a.memo))
          (.unresolved · c.clause c.span) m c.exprs
  ⟨m, p.targets ++ [⟨⟨asset, s.name⟩, required, reached⟩],
    p.errors ++ requiresErrors ++ reachesErrors⟩

/-- Everything that resolving a registry yields. -/
def resolveAll (R : Registry) : Progress :=
  let p := R.rooted.foldl (fun p a => R.resolveVariables a.name p a.bindings.entries)
    ⟨.empty, [], []⟩
  R.rooted.foldl (fun p a => a.steps.entries.foldl (R.resolveStep a.name) p) p

/-- The variable `v` of an asset with its type, where it has one. -/
def typeVariable (p : Progress) (asset : String) (v : VariableEntry) : VariableEntry :=
  match p.memo.find? ⟨asset, v.name⟩ with
  | some (.typed t) => { v with target := some t }
  | _ => v

/-- The step `s` of an asset with what its clauses lead to, where they were resolved. -/
def targetStep (p : Progress) (asset : String) (s : StepEntry) : StepEntry :=
  match p.targets.find? fun t => t.step = ⟨asset, s.name⟩ with
  | some t => { s with required := t.required, reached := t.reached }
  | none => s

theorem typeVariable_name (p : Progress) (asset : String) (v : VariableEntry) :
    (typeVariable p asset v).name = v.name := by
  unfold typeVariable
  split <;> rfl

theorem targetStep_name (p : Progress) (asset : String) (s : StepEntry) :
    (targetStep p asset s).name = s.name := by
  unfold targetStep
  split <;> rfl

/-- The registry with the results of resolving it. -/
def withProgress (R : Registry) (p : Progress) : Registry :=
  { R with
    assets := R.assets.map
      (fun a =>
        { a with
          bindings := a.bindings.map (typeVariable p a.name) (typeVariable_name p a.name)
          steps := a.steps.map (targetStep p a.name) (targetStep_name p a.name) })
      fun _ => rfl }

end Registry

end MetaAttack
