import MetaAttack.Diagnostic.FatalError

/-!
# Load errors
-/

namespace MetaAttack

/-- Why there is no manifest. -/
inductive ManifestError
  | unreadable (path : Path) (cause : FileError)
  | unparsable (path : Path)
  /-- Neither the directory `start` nor one above it holds a manifest. -/
  | notFound (start : Path)
deriving DecidableEq, Repr

def ManifestError.message : ManifestError → String
  | unreadable p cause => s!"IO error reading {p.text}: {cause.message}"
  | unparsable p => s!"Parse error in {p.text}: TOML parse error"
  | notFound start => s!"No mal.toml found searching from {start.text}"

/-- Why a project could not be loaded. -/
inductive LoadError
  | manifest (cause : ManifestError)
  /-- The file to start with cannot be read. -/
  | unreadable (path : Path) (cause : FileError)
  /-- The file to start with is no specification. -/
  | unparsable (path : Path) (cause : ParseError)
  | inclusion (cause : FatalError)
deriving DecidableEq, Repr

def LoadError.message : LoadError → String
  | manifest cause => cause.message
  | unreadable p cause => s!"IO error reading {p.text}: {cause.message}"
  | unparsable p cause => s!"Parse error in {p.text}: {cause.message}"
  | inclusion cause => cause.message

end MetaAttack
