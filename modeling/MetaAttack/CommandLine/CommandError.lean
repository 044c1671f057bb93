import MetaAttack.Project.LoadError

/-!
# Command errors
-/

namespace MetaAttack

/-- Why a command failed. -/
inductive CommandError
  | unusable (path : Path) (cause : FileError)
  | manifest (cause : ManifestError)
  | load (cause : LoadError)
  /-- The check found this many errors. -/
  | checkFailed (errors : Nat)
  /-- The check found this many warnings, and they are not allowed. -/
  | warningsDenied (warnings : Nat)
  | directoryNotEmpty (dir : Path)
deriving DecidableEq, Repr

def CommandError.message : CommandError → String
  | unusable p cause => s!"IO error at {p.text}: {cause.message}"
  | manifest cause => s!"Manifest error: {cause.message}"
  | load cause => s!"Load error: {cause.message}"
  | checkFailed n => s!"Check failed with {n} error(s)"
  | warningsDenied n => s!"Check failed: {n} warning(s) denied"
  | directoryNotEmpty dir => s!"Directory {dir.text} is not empty"

end MetaAttack
