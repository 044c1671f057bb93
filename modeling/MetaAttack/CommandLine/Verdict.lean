import MetaAttack.CommandLine.CommandError
import MetaAttack.Project.Load

/-!
# Verdicts

What a check of a project prints, and whether it passes: it fails if there are errors, and, where
warnings are denied, if there are warnings.
-/

namespace MetaAttack

/-- The line of a diagnostic, if it has one. -/
def Span.place (s : Span) : String := if s.line = 0 then "" else s!"line {s.line}: "

/-- A heading with a list of diagnostics under it; nothing if there are none. -/
def diagnosticList (what : String) (items : List (Span × String)) : String :=
  if items.isEmpty then ""
  else
    s!"\nFound {items.length} {what}(s):\n\n" ++
      String.join (items.map fun (s, message) => s!"  - {s.place}{message}\n")

namespace Project

/-- How much was checked. -/
def summary (p : Project) : String :=
  let R := p.analysis.registry
  let steps := R.assets.entries.foldl (fun n a => n + a.steps.size) 0
  s!"  {p.sources.length} file(s)\n  {R.categories.size} categor(y/ies)\n" ++
    s!"  {R.assets.size} asset(s)\n  {steps} attack step(s)\n" ++
    s!"  {R.associations.length} association(s)\n"

/-- Whether a check passes. Warnings can be denied by the manifest as well. -/
def verdict (p : Project) (denyWarnings : Bool) : Except CommandError Unit :=
  if p.analysis.hasError then .error (.checkFailed p.analysis.errors.length)
  else if (denyWarnings || p.manifest.check.denyWarnings) && p.analysis.hasWarning then
    .error (.warningsDenied p.analysis.warnings.length)
  else .ok ()

/-- What a check prints. -/
def report (p : Project) (denyWarnings : Bool) : String :=
  s!"Checking {p.name}...\n" ++
    diagnosticList "warning" (p.analysis.warnings.map fun w => (w.span, w.message)) ++
    diagnosticList "error" (p.analysis.errors.map fun e => (e.span, e.message)) ++
    match p.verdict denyWarnings with
    | .error _ => ""
    | .ok () => p.summary ++ "\nNo errors found.\n"

end Project

end MetaAttack
