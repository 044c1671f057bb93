import MetaAttack.Check.Fields
import MetaAttack.Diagnostic.SemanticError
import MetaAttack.Registry.Ancestry
import MetaAttack.Spec.Ttc.Distribution

/-!
# Attack steps

A step keeps the kind of the step that it overrides and adds only to a step that it inherits. Steps
that ask for the existence of assets have a requires clause and neither a time nor a classification;
no other step has a requires clause. The time of a defense is one distribution that turns it on or
off; elsewhere such a distribution has no place.
-/

namespace MetaAttack

namespace Ttc

/-- What is wrong with a distribution that stands alone: its name, or else the number or the range
of its parameters. -/
def leafErrors (name : String) (params : List Float) (span : Span) : List SemanticError :=
  match Distribution.find? name with
  | none => [.unsupportedDistribution name span]
  | some d =>
      if params.length ≠ d.params.length then
        [.distributionArity name d.params.length params.length span]
      else
        match d.range with
        | some r => if r.holds params then [] else [.distributionRange name r.requirement span]
        | none => []

/-- What is wrong with the place of a distribution: `restricted` below an operator that takes times
only, `operand` below any operator. -/
def placeErrors (restricted operand : Bool) (name : String) (span : Span) : List SemanticError :=
  match Distribution.find? name with
  | none => []
  | some d =>
      (if restricted && d.isValueOnly then [.restrictedOperand name span] else []) ++
        if operand && d.isLogical then [.logicalOperand name span] else []

/-- What is wrong with the distributions of an expression, from left to right. -/
def errors (restricted operand : Bool) : Ttc → List SemanticError
  | number _ _ => []
  | distribution n ps s => leafErrors n.name ps s ++ placeErrors restricted operand n.name s
  | binary op l r _ =>
      let restricted := restricted || op.timesOnly
      l.errors restricted true ++ r.errors restricted true

/-- The distributions that a defense may have. -/
def allowedOnDefense (t : Ttc) : Bool :=
  t.distributionName?.any fun n => n = "Enabled" || n = "Disabled" || n = "Bernoulli"

end Ttc

namespace StepEntry

/-- What is wrong with the time of a step on the asset `asset`. -/
def ttcErrors (asset : String) (s : StepEntry) : List SemanticError :=
  match s.ttc with
  | none => []
  | some t =>
      match s.kind with
      | .existence | .absence => []
      | .defense =>
          if t.allowedOnDefense then t.errors false false
          else [.invalidDefenseTtc asset s.name t.span]
      | .allOf | .anyOf =>
          (if t.distributionName?.any Distribution.logicalName then [.logicalTtcOnAttack t.span]
            else []) ++ t.errors false false

/-- Whether a step of this kind breaks no property. -/
def hasNoClassification : StepKind → Bool
  | .existence | .absence | .defense => true
  | .allOf | .anyOf => false

/-- What is wrong with the classification of a step. -/
def classificationErrors (asset : String) (s : StepEntry) : List SemanticError :=
  match s.cia with
  | none => []
  | some c =>
      if hasNoClassification s.kind then [.classificationNotAllowed asset s.name s.kind c.span]
      else []

/-- The letters that occur again behind an earlier occurrence, each once, in the order in which they
first do so. -/
def repeatedFlags (earlier found : List Cia) : List Cia → List Cia
  | [] => found
  | f :: fs =>
      repeatedFlags (f :: earlier)
        (if earlier.contains f && !found.contains f then found ++ [f] else found) fs

/-- What is doubtful about the classification of a step. -/
def classificationWarnings (asset : String) (s : StepEntry) : List SemanticWarning :=
  match s.cia with
  | none => []
  | some c =>
      if hasNoClassification s.kind then []
      else
        match repeatedFlags [] [] c.flags with
        | [] => []
        | letters => [.duplicateClassification asset s.name letters c.span]

/-- What is wrong with the clauses of a step, given its kind. -/
def existenceErrors (s : StepEntry) : List SemanticError :=
  if s.kind.isExistence then
    (if s.requires.isNone then [.missingRequires s.kind s.span] else []) ++
      (s.ttc.map fun t => .existenceWithTtc s.kind t.span).toList
  else (s.requires.map fun r => .requiresOnNonExistence r.span).toList

/-- What is wrong between a step and the one of its name that `above`, the ancestors, has. -/
def overrideErrors (above : List AssetEntry) (s : StepEntry) : List SemanticError :=
  match above.findSome? fun a => a.steps.find? s.name with
  | none => if s.appends then [.inheritWithoutDefinition s.name s.span] else []
  | some prior =>
      if prior.kind ≠ s.kind then
        [.overrideKindMismatch s.name prior.span.line prior.kind s.kind s.span]
      else []

end StepEntry

namespace Registry

/-- What is wrong with the steps of an asset. Overriding is left out where the asset has no root. -/
def stepErrorsOf (R : Registry) (a : AssetEntry) : List SemanticError :=
  let rooted := !R.isBroken a.name
  let above := R.strictAncestors a.name
  a.steps.entries.flatMap fun s =>
    (if rooted then s.overrideErrors above else []) ++ s.existenceErrors ++
      s.classificationErrors a.name ++ s.ttcErrors a.name

def stepErrors (R : Registry) : List SemanticError := R.assets.entries.flatMap R.stepErrorsOf

def classificationWarnings (R : Registry) : List SemanticWarning :=
  R.assets.entries.flatMap fun a =>
    a.steps.entries.flatMap fun s => s.classificationWarnings a.name

end Registry

end MetaAttack
