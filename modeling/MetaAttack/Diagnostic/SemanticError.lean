import MetaAttack.Diagnostic.ResolveError
import MetaAttack.Spec.Step

/-!
# Semantic errors and warnings

What analysis finds wrong with a specification that parses, or merely doubtful.
-/

namespace MetaAttack

/-- The clause of a step that an expression stands in. -/
inductive Clause
  | reaches
  | appends
  | requires
deriving DecidableEq, Repr

namespace Clause

def text : Clause → String
  | reaches => "reaches ('->')"
  | appends => "reaches ('+>')"
  | requires => "requires ('<-')"

/-- What every expression of the clause has to lead to. -/
def target : Clause → String
  | reaches | appends => "attack step"
  | requires => "asset"

end Clause

/-- A rule of the language that a specification breaks. -/
inductive SemanticError
  | missingDefine (key : String)
  | emptyDefine (key : String) (span : Span)
  | invalidVersion (span : Span)
  | duplicateDefine (key : String) (firstLine : Nat) (span : Span)
  | duplicateAsset (name : String) (firstLine : Nat) (span : Span)
  | undefinedAsset (name : String) (span : Span)
  /-- The names of `chain` each extend the next; the last is the first. -/
  | extendsLoop (name : String) (chain : List String) (span : Span)
  | duplicateField (asset field : String) (firstLine : Nat) (span : Span)
  | fieldDefinedAsStep (asset field : String) (firstLine : Nat) (span : Span)
  | duplicateStep (asset step : String) (firstLine : Nat) (span : Span)
  | duplicateVariable (name : String) (firstLine : Nat) (span : Span)
  | duplicateRemark (key : String) (firstLine : Nat) (span : Span)
  | inheritWithoutDefinition (step : String) (span : Span)
  | overrideKindMismatch (step : String) (firstLine : Nat) (inheritedKind kind : StepKind)
      (span : Span)
  | missingRequires (kind : StepKind) (span : Span)
  | existenceWithTtc (kind : StepKind) (span : Span)
  | requiresOnNonExistence (span : Span)
  | classificationNotAllowed (asset step : String) (kind : StepKind) (span : Span)
  | unsupportedDistribution (name : String) (span : Span)
  | distributionArity (name : String) (expected found : Nat) (span : Span)
  | distributionRange (name requirement : String) (span : Span)
  | restrictedOperand (name : String) (span : Span)
  | logicalOperand (name : String) (span : Span)
  | logicalTtcOnAttack (span : Span)
  | invalidDefenseTtc (asset step : String) (span : Span)
  /-- The expression of a variable has no type. -/
  | resolve (cause : ResolveError)
  /-- An expression of a clause does not resolve. There are no causes where all were reported
  before. -/
  | unresolved (causes : List ResolveError) (clause : Clause) (span : Span)
deriving DecidableEq, Repr

namespace SemanticError

/-- A define that is missing has no place. -/
def span : SemanticError → Span
  | missingDefine _ => .nowhere
  | resolve cause => cause.span
  | emptyDefine _ s | invalidVersion s | duplicateDefine _ _ s | duplicateAsset _ _ s
  | undefinedAsset _ s | extendsLoop _ _ s | duplicateField _ _ _ s | fieldDefinedAsStep _ _ _ s
  | duplicateStep _ _ _ s | duplicateVariable _ _ s | duplicateRemark _ _ s
  | inheritWithoutDefinition _ s | overrideKindMismatch _ _ _ _ s | missingRequires _ s
  | existenceWithTtc _ s | requiresOnNonExistence s | classificationNotAllowed _ _ _ s
  | unsupportedDistribution _ s | distributionArity _ _ _ s | distributionRange _ _ s
  | restrictedOperand _ s | logicalOperand _ s | logicalTtcOnAttack s | invalidDefenseTtc _ _ s
  | unresolved _ _ s => s

/-- The causes, one a line, and then the rule of the clause. -/
def unresolvedMessage (causes : List ResolveError) (clause : Clause) (line : Nat) : String :=
  "\n".intercalate (causes.map ResolveError.message ++
    [s!"Line {line}: All expressions in {clause.text} must point to a valid {clause.target}"])

def message : SemanticError → String
  | missingDefine key => s!"Missing required define '#{key}: \"\"'"
  | emptyDefine key _ => s!"Define '{key}' cannot be empty"
  | invalidVersion _ =>
      "Define 'version' must be valid semantic versioning without pre-release identifier and " ++
        "build metadata"
  | duplicateDefine key line _ => s!"Define '{key}' previously defined at line {line}"
  | duplicateAsset name line _ => s!"Asset '{name}' previously defined at line {line}"
  | undefinedAsset name _ => s!"Asset '{name}' not defined"
  | extendsLoop name chain _ =>
      s!"Asset '{name}' extends in loop '" ++ " -> ".intercalate chain ++ "'"
  | duplicateField asset field line _ =>
      s!"Field '{asset}.{field}' previously defined at line {line}"
  | fieldDefinedAsStep asset field line _ =>
      s!"Field '{asset}.{field}' previously defined as attack step at line {line}"
  | duplicateStep asset step line _ =>
      s!"Attack step '{asset}.{step}' previously defined at line {line}"
  | duplicateVariable name line _ => s!"Variable '{name}' previously defined at line {line}"
  | duplicateRemark key line _ => s!"Metadata '{key}' previously defined at line {line}"
  | inheritWithoutDefinition step _ =>
      s!"Cannot inherit attack step '{step}' without previous definition"
  | overrideKindMismatch step line inheritedKind kind _ =>
      s!"Cannot override attack step '{step}' previously defined at line {line} with different " ++
        s!"type '{inheritedKind.text}' =/= '{kind.text}'"
  | missingRequires kind _ => s!"Attack step of type '{kind.text}' must have require '<-'"
  | existenceWithTtc kind _ => s!"Attack step of type '{kind.text}' must not have TTC"
  | requiresOnNonExistence _ =>
      "Require '<-' may only be defined for attack step type exist 'E' or not-exist '!E'"
  | classificationNotAllowed asset step kind _ =>
      s!"Attack step '{asset}.{step}' of type '{kind.text}' cannot have CIA classifications"
  | unsupportedDistribution name _ => s!"Distribution '{name}' is not supported"
  | distributionArity name expected found _ =>
      s!"Distribution '{name}' requires exactly {expected} parameter(s), found {found}"
  | distributionRange name requirement _ => s!"Distribution '{name}' requires {requirement}"
  | restrictedOperand name _ =>
      s!"TTC distribution '{name}' is not available in subtraction, division or exponential " ++
        "expressions."
  | logicalOperand name _ =>
      s!"TTC distribution '{name}' is not available in arithmetic expressions."
  | logicalTtcOnAttack _ =>
      "Distributions 'Enabled' or 'Disabled' may not be used as TTC values in '&' and '|' " ++
        "attack steps"
  | invalidDefenseTtc asset step _ =>
      s!"Defense '{asset}.{step}' may only have 'Enabled', 'Disabled', or 'Bernoulli(p)' as TTC"
  | resolve cause => cause.message
  | unresolved causes clause span => unresolvedMessage causes clause span.line

/-- What a report writes at the place of the error; an error without a place has no label. -/
def label? : SemanticError → Option String
  | missingDefine _ => none
  | emptyDefine .. => some "empty value"
  | invalidVersion .. => some "invalid version"
  | duplicateDefine .. | duplicateAsset .. | duplicateField .. | duplicateStep ..
  | duplicateVariable .. | duplicateRemark .. => some "duplicate"
  | undefinedAsset .. => some "not found"
  | extendsLoop .. => some "cycle here"
  | fieldDefinedAsStep .. => some "conflicts with attack step"
  | inheritWithoutDefinition .. => some "nothing to inherit"
  | overrideKindMismatch .. => some "different type"
  | missingRequires .. => some "no requires"
  | existenceWithTtc .. => some "TTC not allowed"
  | requiresOnNonExistence .. => some "requires not allowed"
  | classificationNotAllowed .. => some "classification not allowed"
  | unsupportedDistribution .. => some "unknown distribution"
  | distributionArity .. => some "wrong number of parameters"
  | distributionRange .. => some "out of range"
  | restrictedOperand .. | logicalOperand .. => some "not allowed here"
  | logicalTtcOnAttack .. => some "not allowed on attack steps"
  | invalidDefenseTtc .. => some "invalid defense TTC"
  | resolve cause => some cause.label
  | unresolved .. => some "in this clause"

end SemanticError

/-- Something doubtful in a specification. -/
inductive SemanticWarning
  | abstractNeverExtended (name : String) (span : Span)
  | duplicateClassification (asset step : String) (letters : List Cia) (span : Span)
deriving DecidableEq, Repr

namespace SemanticWarning

/-- The place that a warning points at. -/
def span : SemanticWarning → Span
  | abstractNeverExtended _ s | duplicateClassification _ _ _ s => s

def message : SemanticWarning → String
  | abstractNeverExtended name _ => s!"Asset '{name}' is abstract but never extended to"
  | duplicateClassification asset step letters _ =>
      s!"Attack step '{asset}.{step}' contains duplicate classification " ++
        "\x7b" ++ ", ".intercalate (letters.map Cia.text) ++ "\x7d"

/-- What a report writes at the place of the warning. -/
def label : SemanticWarning → String
  | abstractNeverExtended .. => "never extended"
  | duplicateClassification .. => "duplicate"

end SemanticWarning

end MetaAttack
