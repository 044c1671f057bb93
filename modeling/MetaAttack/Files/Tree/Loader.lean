import MetaAttack.Analysis.Walk
import MetaAttack.Files.Tree
import MetaAttack.Spec.Declaration.Parser

/-!
# Files of a tree

Included files are looked up next to the including file first, then in further directories. A file
that is found is named by the path from the root, so that it is one file under whatever path an
include reaches it.
-/

namespace MetaAttack

namespace FileTree

/-- The file that a path leads to, if it is a specification. -/
def load (t : FileTree) (p : Path) : Except FatalError SourceFile :=
  match t.read p with
  | .error e => .error (.unreadable p e)
  | .ok text =>
      match Spec.ofSource text with
      | .error e => .error (.unparsable p e)
      | .ok spec => .ok ⟨text, spec⟩

/-- The file that an include in a file of the directory `dir` names. One that is nowhere would have
to be in that directory. -/
def resolve (t : FileTree) (includeDirs : List Path) (dir : Path) (name : String) : Path :=
  let candidates := (dir :: includeDirs).map fun d => d.join (.ofText name)
  match candidates.find? t.isFile with
  | some p => (t.canonical p).toOption.getD p
  | none => dir.join (.ofText name)

/-- The paths from the root to all that a tree holds. -/
def paths (t : FileTree) : List Path := t.entries.map fun f => .ofLocation f.1

theorem isFile_iff {t : FileTree} {p : Path} :
    t.isFile p = true ↔ ∃ l text, t.locate p = .ok l ∧ t.get? l = some (.file text) := by
  unfold isFile entry?
  cases h : t.locate p with
  | error e => simp
  | ok l =>
      cases h : t.get? l with
      | none => simp [h]
      | some e => cases e <;> simp [h]

/-- Only a file can be read. -/
theorem isFile_of_read {t : FileTree} {p : Path} {text : String} (h : t.read p = .ok text) :
    t.isFile p = true := by
  unfold read at h
  cases hl : t.locate p with
  | error e => simp [hl, bind, Except.bind] at h
  | ok l =>
      refine isFile_iff.2 ⟨l, ?_⟩
      simp only [hl, bind, Except.bind] at h
      split at h
      · next s hs => exact ⟨some s, hl, hs⟩
      all_goals simp [throw, throwThe, MonadExceptOf.throw] at h

theorem canonical_mem_paths {t : FileTree} {p : Path} (h : t.isFile p = true) :
    ∃ q ∈ t.paths, t.canonical p = .ok q := by
  obtain ⟨l, text, hl, he⟩ := isFile_iff.1 h
  have hne : l ≠ [] := by
    rintro rfl
    simp [get?] at he
  exact ⟨.ofLocation l, List.mem_map_of_mem (mem_of_get? hne he), canonical_of_locate hl⟩

theorem resolve_mem_paths {t : FileTree} {includeDirs : List Path} {dir : Path} {name : String}
    {file : SourceFile} (h : t.load (t.resolve includeDirs dir name) = .ok file) :
    t.resolve includeDirs dir name ∈ t.paths := by
  unfold resolve at h ⊢
  simp only at h ⊢
  split
  · next p hp =>
    obtain ⟨q, hq, hc⟩ := canonical_mem_paths (List.find?_some hp)
    simpa [hc, Except.toOption] using hq
  · next hp =>
    rw [hp] at h
    unfold load at h
    split at h
    · simp at h
    · next text hr =>
      have := List.find?_eq_none.1 hp _ (List.mem_map_of_mem (List.mem_cons_self))
      exact absurd (isFile_of_read hr) this

/-- Serves the files of a tree, and looks in `includeDirs` for those that are not next to the
including file. -/
def loader (t : FileTree) (includeDirs : List Path) : Loader where
  resolve := t.resolve includeDirs
  load := t.load
  files := t.paths
  load_mem _ _ _ := resolve_mem_paths

end FileTree

end MetaAttack
