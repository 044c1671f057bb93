import MetaAttack.Analysis.Analyzer
import MetaAttack.Spec.Declaration.Parser

/-!
# Files in memory

A collection of sources under normalized paths, so that `a/../b.mal` and `b.mal` are one file.
-/

namespace MetaAttack

/-- Sources by normalized path, in the order in which they were added. -/
structure MemoryFiles where
  files : List (Path × String)

namespace MemoryFiles

def empty : MemoryFiles := ⟨[]⟩

/-- Adds a source, in place of an earlier one of its path. -/
def insert (m : MemoryFiles) (path : Path) (source : String) : MemoryFiles :=
  let p := path.normalize
  if m.files.any fun f => f.1 = p then
    ⟨m.files.map fun f => if f.1 = p then (p, source) else f⟩
  else ⟨m.files ++ [(p, source)]⟩

def ofList (files : List (Path × String)) : MemoryFiles :=
  files.foldl (fun m f => m.insert f.1 f.2) empty

/-- The file under a normalized path. -/
def load (m : MemoryFiles) (p : Path) : Except FatalError SourceFile :=
  match m.files.find? fun f => f.1 = p with
  | none => .error (.unreadable p .notInCollection)
  | some (_, text) =>
      match Spec.ofSource text with
      | .error e => .error (.unparsable p e)
      | .ok spec => .ok ⟨text, spec⟩

theorem mem_of_load {m : MemoryFiles} {p : Path} {file : SourceFile} (h : m.load p = .ok file) :
    p ∈ m.files.map Prod.fst := by
  unfold load at h
  split at h
  · simp at h
  · next q text hf =>
    have hq : q = p := by simpa using List.find?_some hf
    exact hq ▸ List.mem_map_of_mem (List.mem_of_find?_eq_some hf)

/-- Includes are looked up next to the including file. -/
def loader (m : MemoryFiles) : Loader where
  resolve dir name := (dir.join (.ofText name)).normalize
  load := m.load
  files := m.files.map Prod.fst
  load_mem _ _ _ := mem_of_load

/-- Analyzes the file under a path with what it includes. -/
def analyze (m : MemoryFiles) (path : Path) : Except FatalError Analysis := do
  let p := path.normalize
  let file ← m.load p
  return (← file.spec.analyzeAt m.loader p).analysis

end MemoryFiles

end MetaAttack
