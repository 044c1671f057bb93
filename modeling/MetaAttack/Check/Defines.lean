import MetaAttack.Diagnostic.SemanticError
import MetaAttack.Registry.Basic

/-!
# Required defines

A specification has an `id` and a `version`. Neither may be empty, and a version is three numerals
with dots between them.
-/

namespace MetaAttack

/-- Cuts a text at its dots. -/
def dotParts : List Char → List (List Char)
  | [] => [[]]
  | c :: r =>
      if c = '.' then [] :: dotParts r
      else
        match dotParts r with
        | [] => [[c]]
        | p :: ps => (c :: p) :: ps

/-- Digits that start with a zero only if they are nothing else. -/
def isPlainNumeral (ds : List Char) : Bool :=
  !ds.isEmpty && ds.all Char.isDigit && (ds.length = 1 || ds.head? ≠ some '0')

/-- Whether a text has the form `major.minor.patch`. -/
def isPlainVersion (s : String) : Bool :=
  let parts := dotParts s.toList
  parts.length = 3 && parts.all isPlainNumeral

namespace Registry

/-- What is wrong with the define of a required key. -/
def defineErrors (R : Registry) (key : String) : List SemanticError :=
  match R.defines.find? key with
  | none => [.missingDefine key]
  | some d =>
      if d.value = "" then [.emptyDefine key d.span]
      else if key = "version" && !isPlainVersion d.value then [.invalidVersion d.span]
      else []

/-- What is wrong with the required defines. -/
def requiredDefineErrors (R : Registry) : List SemanticError :=
  R.defineErrors "id" ++ R.defineErrors "version"

end Registry

end MetaAttack
