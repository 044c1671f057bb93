import MetaAttack.Files.FileError
import MetaAttack.Files.Path
import MetaAttack.Spec.ParseError

/-!
# Fatal errors
-/

namespace MetaAttack

/-- Why analysis cannot go on: a file that an include names cannot be used. -/
inductive FatalError
  | unreadable (path : Path) (cause : FileError)
  | unparsable (path : Path) (cause : ParseError)
  /-- The specification is analyzed on its own, without other files. -/
  | includeUnsupported (path : Path)
deriving DecidableEq, Repr

namespace FatalError

def path : FatalError → Path
  | unreadable p _ | unparsable p _ | includeUnsupported p => p

def message : FatalError → String
  | unreadable p cause => s!"cannot read '{p.text}': {cause.message}"
  | unparsable p cause => s!"cannot parse '{p.text}': {cause.message}"
  | includeUnsupported p => s!"include '{p.text}' cannot be loaded without a file loader"

end FatalError

end MetaAttack
