import MetaAttack.Files.Path
import MetaAttack.Toml.Document

/-!
# Manifests

A project is described by a TOML document, its manifest. `Manifest.parse?` reads one: keys that it
does not know are passed over, and what it does not find has a default, the name and the version of
the project excepted. `Manifest.text` writes one out.
-/

namespace MetaAttack

namespace Toml.Node

def text? : Node → Option String
  | text s => some s
  | _ => none

def boolean? : Node → Option Bool
  | boolean b => some b
  | _ => none

/-- The texts in an array that holds nothing else. -/
def texts? : Node → Option (List String)
  | array items => items.mapM text?
  | _ => none

/-- The fields of a record. A table has them under their names, an array in their order, and of
those `least` must be there. A time counts as a table that has none of them. -/
def fields? (names : List String) (least : Nat) : Node → Option Entries
  | table _ entries => some entries
  | array items => if items.length < least then none else some (names.zip items)
  | time _ => if least = 0 then some [] else none
  | _ => none

end Toml.Node

/-- What a project calls itself. -/
structure ProjectInfo where
  name : String
  version : String
  description : Option String
  authors : List String
deriving DecidableEq, Repr

/-- Where the files of a project are. -/
structure SourceSettings where
  /-- The directory of the sources, as seen from the manifest. -/
  dir : Path
  /-- The file to start with, as seen from `dir`. -/
  entry : Path
  /-- Further directories to look for included files, as seen from the manifest. -/
  includeDirs : List Path
deriving DecidableEq, Repr

/-- How strictly a project is checked. -/
structure CheckSettings where
  /-- Whether a warning makes a check fail. -/
  denyWarnings : Bool
deriving DecidableEq, Repr

/-- What a manifest says about its project. -/
structure Manifest where
  project : ProjectInfo
  source : SourceSettings
  check : CheckSettings
deriving DecidableEq, Repr

def SourceSettings.default : SourceSettings := ⟨.ofText "src", .ofText "main.mal", []⟩

def CheckSettings.default : CheckSettings := ⟨false⟩

namespace Manifest

/-- The name of the file that holds the manifest of a project. -/
def fileName : Path := .ofText "mal.toml"

/-- The manifest of a new project. -/
def ofName (name : String) : Manifest := ⟨⟨name, "0.1.0", none, []⟩, .default, .default⟩

/-- The file to start with, as seen from the manifest. -/
def entryPath (m : Manifest) : Path := m.source.dir.join m.source.entry

/-- Reads a field; one that is missing has a default. -/
def fieldD {α : Type} (fields : Toml.Entries) (key : String) (read : Toml.Node → Option α)
    (default : α) : Option α :=
  match fields.find? key with
  | none => some default
  | some n => read n

end Manifest

def ProjectInfo.ofNode? (n : Toml.Node) : Option ProjectInfo := do
  let fields ← n.fields? ["name", "version", "description", "authors"] 3
  let name ← (← fields.find? "name").text?
  let version ← (← fields.find? "version").text?
  let description ← Manifest.fieldD fields "description" (fun n => n.text?.map some) none
  let authors ← Manifest.fieldD fields "authors" Toml.Node.texts? []
  return ⟨name, version, description, authors⟩

def SourceSettings.ofNode? (n : Toml.Node) : Option SourceSettings := do
  let fields ← n.fields? ["dir", "entry", "include_dirs"] 0
  let path (n : Toml.Node) := n.text?.map Path.ofText
  let dir ← Manifest.fieldD fields "dir" path default.dir
  let entry ← Manifest.fieldD fields "entry" path default.entry
  let includeDirs ← Manifest.fieldD fields "include_dirs"
    (fun n => n.texts?.map (List.map Path.ofText)) default.includeDirs
  return ⟨dir, entry, includeDirs⟩

def CheckSettings.ofNode? (n : Toml.Node) : Option CheckSettings := do
  let fields ← n.fields? ["deny_warnings"] 0
  return ⟨← Manifest.fieldD fields "deny_warnings" Toml.Node.boolean? default.denyWarnings⟩

namespace Manifest

/-- Reads the tables of a manifest. Only the one for the project has to be there. -/
def ofEntries? (es : Toml.Entries) : Option Manifest := do
  let project ← ProjectInfo.ofNode? (← es.find? "project")
  let source ← fieldD es "source" SourceSettings.ofNode? .default
  let check ← fieldD es "check" CheckSettings.ofNode? .default
  return ⟨project, source, check⟩

/-- Reads a manifest. -/
def parse? (source : String) : Option Manifest := (Toml.parse? source).bind ofEntries?

/-- A line that holds a key and its value. -/
def line (key value : String) : String := s!"{key} = {value}\n"

/-- An array of strings. Where there are more than one, each has a line of its own. -/
def arrayText : List String → String
  | [] => "[]"
  | [s] => "[" ++ Toml.quote s ++ "]"
  | items => "[\n" ++ String.join (items.map fun s => s!"    {Toml.quote s},\n") ++ "]"

/-- The manifest as a TOML document. -/
def text (m : Manifest) : String :=
  "[project]\n" ++ line "name" (Toml.quote m.project.name) ++
  line "version" (Toml.quote m.project.version) ++
  (match m.project.description with
    | some s => line "description" (Toml.quote s)
    | none => "") ++
  line "authors" (arrayText m.project.authors) ++
  "\n[source]\n" ++ line "dir" (Toml.quote m.source.dir.text) ++
  line "entry" (Toml.quote m.source.entry.text) ++
  line "include_dirs" (arrayText (m.source.includeDirs.map Path.text)) ++
  "\n[check]\n" ++ line "deny_warnings" (if m.check.denyWarnings then "true" else "false")

end Manifest

end MetaAttack
