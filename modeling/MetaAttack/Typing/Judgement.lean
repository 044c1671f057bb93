import MetaAttack.Typing.Memo

/-!
# Judgements

An expression has a type, an asset, in the context of an asset, or there are causes for which it has
none. A judgement is one step on the way to either: it is made from what the parts of the expression
came to and from the registry alone. What is known about variables plays no part in it.
-/

namespace MetaAttack

/-- A result, or the causes for which there is none. No causes are left where all were reported
before. -/
abbrev Resolution (α : Type) := Except (List ResolveError) α

/-- The causes for which there is no result. -/
def Resolution.causes {α : Type} : Resolution α → List ResolveError
  | .ok _ => []
  | .error causes => causes

/-- The verdict that a result amounts to. -/
def Verdict.ofResult : Resolution String → Verdict
  | .ok t => typed t
  | .error _ => failed

namespace Registry

/-- The type of a field of the asset `context`. -/
def typeOfField (R : Registry) (context : String) (name : Ident) : Resolution String :=
  match R.findField? context name.name with
  | some f => .ok f.target
  | none =>
      .error
        [.undefinedField name.name context (R.findVariable? context name.name).isSome name.span]

/-- The type of a set operation whose operands have the types `left` and `right`. -/
def typeOfSet (R : Registry) (span : Span) (left right : String) : Resolution String :=
  match R.join? left right with
  | some t => .ok t
  | none => .error [.noCommonAncestor left right span]

/-- The type of `e*` where `e` has the type `target`. -/
def typeOfClosure (R : Registry) (context : String) (span : Span) (target : String) :
    Resolution String :=
  if R.isSubtype context target then .ok target
  else .error [.notTransitive context target span]

/-- The type of `e[subtype]` where `e` has the type `base`. -/
def typeOfRestriction (R : Registry) (subtype : Ident) (base : String) : Resolution String :=
  if !R.hasAsset subtype.name then .error [.undefinedSubtype subtype.name subtype.span]
  else if R.isSubtype subtype.name base then .ok subtype.name
  else .error [.notSubtype subtype.name base subtype.span]

/-- The attack step that a name stands for where it is asked for on the asset `context`. -/
def stepOfField (R : Registry) (context : String) (name : Ident) : Resolution StepRef :=
  if (R.findStep? context name.name).isSome then .ok ⟨context, name.name⟩
  else .error [.undefinedStep name.name context name.span]

end Registry

end MetaAttack
