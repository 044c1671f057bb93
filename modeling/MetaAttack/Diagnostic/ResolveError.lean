import MetaAttack.Span

/-!
# Resolve errors

Why an expression has no type, or does not end in an attack step.
-/

namespace MetaAttack

/-- A cause for which an expression cannot be resolved. -/
inductive ResolveError
  /-- `isVariable` tells that a variable of this name is in reach. -/
  | undefinedField (field asset : String) (isVariable : Bool) (span : Span)
  | undefinedVariable (name asset : String) (span : Span)
  | noCommonAncestor (left right : String) (span : Span)
  | undefinedSubtype (name : String) (span : Span)
  | notSubtype (subtype base : String) (span : Span)
  | notTransitive (context target : String) (span : Span)
  | undefinedStep (step asset : String) (span : Span)
  | notAttackStep (span : Span)
  /-- The names of `chain` are variables, each used by the one before it; the last is the first. -/
  | variableCycle (name : String) (chain : List String) (span : Span)
deriving DecidableEq, Repr

namespace ResolveError

/-- The place in the expression that is to blame. -/
def span : ResolveError → Span
  | undefinedField _ _ _ s | undefinedVariable _ _ s | noCommonAncestor _ _ s
  | undefinedSubtype _ s | notSubtype _ _ s | notTransitive _ _ s | undefinedStep _ _ s
  | notAttackStep s | variableCycle _ _ s => s

/-- How a cause is shown. -/
def message : ResolveError → String
  | undefinedField field asset isVariable _ =>
      s!"Field '{field}' not defined for asset '{asset}'" ++
        if isVariable then s!", did you mean the variable '{field}()'?" else ""
  | undefinedVariable name asset _ => s!"Variable '{name}' not defined for asset '{asset}'"
  | noCommonAncestor left right _ => s!"Types '{left}' and '{right}' have no common ancestor"
  | undefinedSubtype name _ => s!"Asset '{name}' not defined"
  | notSubtype subtype base _ => s!"Asset '{subtype}' cannot be of type '{base}'"
  | notTransitive context target _ => s!"Previous asset '{context}' is not of type '{target}'"
  | undefinedStep step asset _ => s!"Attack step '{step}' not defined for asset '{asset}'"
  | notAttackStep _ => "Last step is not attack step"
  | variableCycle name chain _ =>
      s!"Variable '{name}' contains cycle " ++ "->".intercalate chain

/-- What a report writes at the place of the error. -/
def label : ResolveError → String
  | undefinedField .. => "unknown field"
  | undefinedVariable .. => "unknown variable"
  | noCommonAncestor .. => "no common ancestor"
  | undefinedSubtype .. => "not found"
  | notSubtype .. => "not a subtype"
  | notTransitive .. => "not transitive"
  | undefinedStep .. => "unknown attack step"
  | notAttackStep .. => "expected an attack step"
  | variableCycle .. => "cycle here"

end ResolveError

end MetaAttack
