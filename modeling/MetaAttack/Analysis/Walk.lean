import MetaAttack.Diagnostic.FatalError
import MetaAttack.Spec.Declaration

/-!
# Walking includes

An include stands for the items of the file that it names, at its place; a file that was visited
before stands for nothing. `walk` follows the includes of a list of items depth first and yields the
declarations in the order in which they come. It ends because every file that it enters is one of
the finitely many that the loader can serve, and is entered once.
-/

namespace MetaAttack

/-- A file that could be read. -/
structure SourceFile where
  text : String
  spec : Spec

/-- Where included files come from. -/
structure Loader where
  /-- The file that an include in a file of the given directory names. -/
  resolve : Path → String → Path
  load : Path → Except FatalError SourceFile
  /-- All files that an include can lead to. -/
  files : List Path
  load_mem : ∀ dir name file, load (resolve dir name) = .ok file → resolve dir name ∈ files

namespace Loader

/-- The loader that refuses every include. -/
def none : Loader where
  resolve dir name := dir.join (.ofText name)
  load p := .error (.includeUnsupported p)
  files := []
  load_mem := by simp

/-- The number of files that were not visited yet. -/
def unvisited (l : Loader) (visited : List Path) : Nat :=
  (l.files.filter fun p => !visited.any p.sameAs).length

theorem unvisited_lt {l : Loader} {visited : List Path} {p : Path} (hp : p ∈ l.files)
    (hv : visited.any p.sameAs = false) : l.unvisited (visited ++ [p]) < l.unvisited visited := by
  have h : (l.files.filter fun q => !(visited ++ [p]).any q.sameAs) =
      (l.files.filter fun q => !visited.any q.sameAs).filter fun q => !q.sameAs p := by
    rw [List.filter_filter]
    refine List.filter_congr fun q _ => ?_
    simp [Bool.and_comm]
  unfold unvisited
  rw [h]
  refine List.length_filter_lt_length_iff_exists.2 ⟨p, ?_, by simp [Path.sameAs]⟩
  simp [hp, hv]

end Loader

/-- What a walk has come across. -/
structure Walk where
  declarations : List Declaration
  /-- The files visited, those visited before the walk first. -/
  visited : List Path
  /-- The files that were read, with their texts. -/
  sources : List (Path × String)
  fatal : Option FatalError

/-- Follows the items in order, each with the directory of the file that it stands in. -/
def walk (l : Loader) (visited : List Path) : List (Path × Item) → Walk
  | [] => ⟨[], visited, [], none⟩
  | (_, .declaration d) :: rest =>
      let w := walk l visited rest
      { w with declarations := d :: w.declarations }
  | (dir, .inclusion i) :: rest =>
      let target := l.resolve dir i.path
      if hv : visited.any target.sameAs then walk l visited rest
      else
        match hl : l.load target with
        | .error e => ⟨[], visited ++ [target], [], some e⟩
        | .ok file =>
            have := Loader.unvisited_lt (l.load_mem _ _ _ hl) (by simpa using hv)
            let inner := file.spec.items.map fun item => (target.directory, item)
            let w := walk l (visited ++ [target]) (inner ++ rest)
            { w with sources := (target, file.text) :: w.sources }
termination_by items => (l.unvisited visited, items.length)

end MetaAttack
