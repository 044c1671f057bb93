import MetaAttack.CommandLine.CommandError
import MetaAttack.Files.Tree
import MetaAttack.Project.Manifest
import MetaAttack.Text.Lowercase

/-!
# New projects

A new project has a manifest and an example specification. It is set up in a directory that is empty
or not there yet.
-/

namespace MetaAttack

/-- Where a new project is to be, and what it is called. -/
structure Scaffold where
  name : String
  dir : Path
deriving DecidableEq, Repr

namespace Scaffold

def manifest (s : Scaffold) : Manifest := .ofName s.name

def sourceDir (s : Scaffold) : Path := s.dir.join s.manifest.source.dir

/-- Where the manifest of the new project goes. -/
def manifestPath (s : Scaffold) : Path := s.dir.join Manifest.fileName

/-- Where its first source goes. -/
def entryPath (s : Scaffold) : Path := s.dir.join s.manifest.entryPath

/-- The identifier of the specification, made from the name. -/
def identifier (s : Scaffold) : String :=
  (Text.lowercase s.name).map fun c => if c = '-' || c = ' ' then '_' else c

/-- The example specification, line by line. -/
def sourceLines (s : Scaffold) : List String :=
  ["#id: \"org.example." ++ s.identifier ++ "\"",
    "#version: \"0.1.0\"",
    "",
    "category System \x7b",
    "  asset Host \x7b",
    "    | connect",
    "      -> network.access",
    "  \x7d",
    "",
    "  asset Network \x7b",
    "    | access [Exponential(0.1)]",
    "      -> hosts.connect",
    "  \x7d",
    "\x7d",
    "",
    "associations \x7b",
    "  Host [hosts] * <-- Connection --> * [network] Network",
    "\x7d"]

/-- The example specification. -/
def source (s : Scaffold) : String := String.join (s.sourceLines.map fun line => line ++ "\n")

/-- Sets up the project. What was made before an error stays. -/
def build (t : FileTree) (s : Scaffold) : FileTree × Except CommandError Unit :=
  if t.contains s.dir && !t.isEmptyDirectory s.dir then (t, .error (.directoryNotEmpty s.dir))
  else
    match t.createDirectories s.sourceDir with
    | (t, .error e) => (t, .error (.unusable s.sourceDir e))
    | (t, .ok ()) =>
        match t.write s.manifestPath (some s.manifest.text) with
        | .error e => (t, .error (.manifest (.unreadable s.manifestPath e)))
        | .ok t =>
            match t.write s.entryPath (some s.source) with
            | .error e => (t, .error (.unusable s.entryPath e))
            | .ok t => (t, .ok ())

/-- What is said about a project that was set up. -/
def summary (s : Scaffold) : String :=
  s!"Created new MAL project: {s.name}\n  {s.manifestPath.text}\n  {s.entryPath.text}\n" ++
    s!"\nTo get started:\n  cd {s.dir.text}\n  malcheck check\n"

end Scaffold

end MetaAttack
