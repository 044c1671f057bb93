import MetaAttack.Analysis.Analyzer
import MetaAttack.Files.Tree.Loader
import MetaAttack.Project.LoadError
import MetaAttack.Project.Manifest

/-!
# Loading projects

A project is loaded from its manifest, which may be searched for from a directory upward, or from a
single file, which is then a project without a manifest of its own.
-/

namespace MetaAttack

namespace Manifest

/-- Reads the manifest that a path leads to. -/
def load (t : FileTree) (p : Path) : Except ManifestError Manifest :=
  match t.read p with
  | .error e => .error (.unreadable p e)
  | .ok text =>
      match parse? text with
      | none => .error (.unparsable p)
      | some m => .ok m

/-- The first manifest in a directory or in those that the text of its path stands in. -/
def find? (t : FileTree) (dir : Path) : Option Path :=
  let p := dir.join fileName
  if t.contains p then some p
  else
    match h : dir.parent? with
    | none => none
    | some parent =>
        have := Path.parent?_length_lt h
        find? t parent
termination_by dir.segments.length

end Manifest

/-- A specification that was loaded and analyzed. -/
structure Project where
  manifest : Manifest
  root : Path
  /-- The file to start with, by its path from the root of the file tree. -/
  entry : Path
  /-- The texts of all files, that of the entry first. -/
  sources : List (Path × String)
  analysis : Analysis

namespace Project

def name (p : Project) : String := p.manifest.project.name

def version (p : Project) : String := p.manifest.project.version

/-- Loads a file and all that it includes. -/
def load (t : FileTree) (manifest : Manifest) (root entry : Path) (includeDirs : List Path) :
    Except LoadError Project :=
  match t.canonical entry with
  | .error e => .error (.unreadable entry e)
  | .ok entry =>
      match t.read entry with
      | .error e => .error (.unreadable entry e)
      | .ok text =>
          match Spec.ofSource text with
          | .error e => .error (.unparsable entry e)
          | .ok spec =>
              match spec.analyzeAt (t.loader includeDirs) entry with
              | .error e => .error (.inclusion e)
              | .ok r => .ok ⟨manifest, root, entry, (entry, text) :: r.sources, r.analysis⟩

/-- The directory of a path; where there is none, the working directory. -/
def rootOf (p : Path) : Path := p.parent?.getD (.ofText ".")

/-- Loads the project that a manifest describes. -/
def ofManifest (t : FileTree) (p : Path) : Except LoadError Project :=
  match Manifest.load t p with
  | .error e => .error (.manifest e)
  | .ok m =>
      let root := rootOf p
      load t m root (root.join m.entryPath) (m.source.includeDirs.map root.join)

/-- Loads a file as a project that bears its name. -/
def ofFile (t : FileTree) (p : Path) : Except LoadError Project :=
  load t (.ofName (p.fileStem?.getD "unnamed")) (rootOf p) p []

/-- Loads a file, or the project that a directory belongs to. -/
def ofPath (t : FileTree) (p : Path) : Except LoadError Project :=
  if t.isDirectory p then
    match Manifest.find? t p with
    | none => .error (.manifest (.notFound p))
    | some q => ofManifest t q
  else ofFile t p

end Project

end MetaAttack
