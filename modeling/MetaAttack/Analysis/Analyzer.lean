import MetaAttack.Analysis.Declare
import MetaAttack.Analysis.Walk
import MetaAttack.Check.Defines
import MetaAttack.Check.Extension
import MetaAttack.Check.Remarks
import MetaAttack.Check.Steps
import MetaAttack.Typing.Clauses

/-!
# Analysis

An analyzer takes in files, with what they include, and then checks everything they declare at once.
-/

namespace MetaAttack

/-- The outcome of checking a specification. -/
structure Analysis where
  registry : Registry
  errors : List SemanticError
  warnings : List SemanticWarning

namespace Analysis

def hasError (a : Analysis) : Bool := !a.errors.isEmpty

def hasWarning (a : Analysis) : Bool := !a.warnings.isEmpty

/-- Checks a filled registry; errors found while it was filled come first. -/
def ofDeclared (s : Declared) : Analysis :=
  let (R, fieldErrors) := s.registry.withFields
  let resolved := R.resolveAll
  { registry := R.withProgress resolved
    errors := s.errors ++ R.requiredDefineErrors ++ R.extensionErrors ++ fieldErrors ++
      R.inheritedFieldErrors ++ R.remarkErrors ++ R.stepErrors ++ R.inheritedVariableErrors ++
      resolved.errors
    warnings := R.abstractWarnings ++ R.classificationWarnings }

end Analysis

/-- What has been taken in so far: the declarations, and the files that they are from. -/
structure Analyzer where
  declared : Declared
  visited : List Path

namespace Analyzer

/-- Nothing was taken in. -/
def empty : Analyzer := ⟨.empty, []⟩

/-- Takes in the file at `path`, with what it includes. Nothing happens if it was visited before.
After a fatal error, what was declared up to then stays. -/
def feed (a : Analyzer) (l : Loader) (path : Path) (spec : Spec) : Analyzer × Walk :=
  if a.visited.any path.sameAs then (a, ⟨[], a.visited, [], none⟩)
  else
    let w := walk l (a.visited ++ [path]) (spec.items.map fun item => (path.directory, item))
    (⟨w.declarations.foldl Declared.declare a.declared, w.visited⟩, w)

/-- Checks everything that was declared. -/
def finish (a : Analyzer) : Analysis := .ofDeclared a.declared

end Analyzer

/-- The files read on the way to an analysis, and the analysis. -/
structure Report where
  sources : List (Path × String)
  analysis : Analysis

/-- Analyzes the file at `path` with what it includes. -/
def Spec.analyzeAt (spec : Spec) (l : Loader) (path : Path) : Except FatalError Report :=
  let (a, w) := Analyzer.empty.feed l path spec
  match w.fatal with
  | some e => .error e
  | none => .ok ⟨w.sources, a.finish⟩

/-- Analyzes a specification on its own. -/
def Spec.analyze (spec : Spec) : Except FatalError Analysis :=
  (spec.analyzeAt .none .empty).map Report.analysis

end MetaAttack
