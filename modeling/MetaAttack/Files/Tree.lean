import MetaAttack.Files.FileError
import MetaAttack.Files.Path

/-!
# File trees

A file tree holds directories and files, each at a location: the names that lead to it from the
root. Everything in a tree stands in a directory of the tree. A path is followed segment by segment,
from the root or from the working directory, and every segment but the last has to lead to a
directory.

A path as a whole can be too long to be looked up, wherever it leads. The search for the path from
the root looks up one name after the other, and so has this limit for each name on the way only.
-/

namespace MetaAttack

/-- The names that lead from the root to a place. -/
abbrev Location := List String

/-- What can stand at a location. -/
inductive FileEntry
  | directory
  /-- A file with its text; one whose bytes are no text has none. -/
  | file (text : Option String)
deriving DecidableEq, Repr

/-- The files and directories of a file system without links. -/
structure FileTree where
  entries : List (Location × FileEntry)
  /-- The working directory. -/
  here : Location
  nodup : (entries.map Prod.fst).Nodup
  parent_mem : ∀ f ∈ entries,
    f.1 ≠ [] ∧ (f.1.dropLast = [] ∨ (f.1.dropLast, FileEntry.directory) ∈ entries)

namespace Path

/-- The path that names a location from the root. -/
def ofLocation (l : Location) : Path := ⟨true, l⟩

/-- The longest path, in bytes. -/
def lengthLimit : Nat := 4095

/-- No path of this length can be looked up. -/
def isTooLong (p : Path) : Bool := p.text.utf8ByteSize > lengthLimit

/-- Makes sure that a path can be a name of something. -/
def checkName (p : Path) : Except FileError Unit :=
  if p.hasZero then .error .zeroInPath else if p = empty then .error .notFound else .ok ()

/-- Makes sure that a path can be looked up as a whole. -/
def checkWhole (p : Path) : Except FileError Unit :=
  match p.checkName with
  | .error e => .error e
  | .ok () => if p.isTooLong then .error .nameTooLong else .ok ()

end Path

namespace FileTree

def empty : FileTree := ⟨[], [], List.nodup_nil, by simp⟩

/-- What stands at a location. -/
def get? (t : FileTree) (l : Location) : Option FileEntry :=
  if l = [] then some .directory else (t.entries.find? fun f => f.1 = l).map Prod.snd

theorem get?_root (t : FileTree) : t.get? [] = some .directory := if_pos rfl

theorem mem_of_get? {t : FileTree} {l : Location} {e : FileEntry} (hl : l ≠ [])
    (h : t.get? l = some e) : (l, e) ∈ t.entries := by
  simp only [get?, hl, if_false, Option.map_eq_some_iff] at h
  obtain ⟨⟨m, e'⟩, hf, rfl⟩ := h
  have hm : m = l := by simpa using List.find?_some hf
  exact hm ▸ List.mem_of_find?_eq_some hf

theorem get?_of_mem {t : FileTree} {l : Location} {e : FileEntry} (h : (l, e) ∈ t.entries) :
    t.get? l = some e := by
  have hl : l ≠ [] := (t.parent_mem _ h).1
  simp only [get?, hl, if_false, Option.map_eq_some_iff]
  have nodup := t.nodup
  generalize t.entries = es at h nodup
  induction es with
  | nil => simp at h
  | cons f es ih =>
      rw [List.map_cons, List.nodup_cons] at nodup
      rcases List.mem_cons.1 h with rfl | h
      · exact ⟨(l, e), by simp, rfl⟩
      · have hne : f.1 ≠ l := fun he => nodup.1 (he ▸ List.mem_map_of_mem (f := Prod.fst) h)
        simpa [List.find?_cons, hne] using ih h nodup.2

/-- Puts an entry under a name into a directory, in place of a file that stood there. -/
def put (t : FileTree) (dir : Location) (name : String) (e : FileEntry)
    (hdir : t.get? dir = some .directory)
    (hfree : t.get? (dir ++ [name]) ≠ some .directory) : FileTree where
  entries := (dir ++ [name], e) :: t.entries.filter fun f => f.1 ≠ dir ++ [name]
  here := t.here
  nodup := by
    rw [List.map_cons, List.nodup_cons]
    refine ⟨by simp, ?_⟩
    exact t.nodup.sublist (List.filter_sublist.map Prod.fst)
  parent_mem := by
    intro f hf
    rcases List.mem_cons.1 hf with rfl | hf
    · refine ⟨by simp, ?_⟩
      by_cases hd : dir = []
      · simp [hd]
      · right
        refine List.mem_cons_of_mem _ (List.mem_filter.2 ?_)
        have : dir ≠ dir ++ [name] := fun h => by simpa using congrArg List.length h
        simp [mem_of_get? hd hdir, this]
    · obtain ⟨hf, -⟩ := List.mem_filter.1 hf
      obtain ⟨hne, hp⟩ := t.parent_mem f hf
      refine ⟨hne, hp.imp_right fun h => List.mem_cons_of_mem _ (List.mem_filter.2 ⟨h, ?_⟩)⟩
      have : f.1.dropLast ≠ dir ++ [name] := fun he => hfree (he ▸ get?_of_mem h)
      simpa using this

theorem get?_put (t : FileTree) (dir : Location) (name : String) (e : FileEntry)
    (hdir : t.get? dir = some .directory) (hfree : t.get? (dir ++ [name]) ≠ some .directory)
    (l : Location) :
    (t.put dir name e hdir hfree).get? l = if l = dir ++ [name] then some e else t.get? l := by
  by_cases hl : l = dir ++ [name]
  · simp [get?, put, hl]
  · by_cases h0 : l = []
    · simp [get?, h0]
    · simp only [get?, put, h0, hl, if_false, List.find?_filter, List.find?_cons]
      have : decide (dir ++ [name] = l) = false := by simpa using fun h => hl h.symm
      rw [this]
      simp only
      congr 2
      funext f
      by_cases hf : f.1 = l
      · simp [hf, hl]
      · simp [hf]

/-- The longest name, in bytes. -/
def nameLimit : Nat := 255

/-- Follows one segment of a path, from a location that was reached before. -/
def step (t : FileTree) (l : Location) (segment : String) : Except FileError Location :=
  match t.get? l with
  | none => .error .notFound
  | some (.file _) => .error .notDirectory
  | some .directory =>
      if segment = "" ∨ segment = "." then .ok l
      else if segment = ".." then .ok l.dropLast
      else if segment.utf8ByteSize > nameLimit then .error .nameTooLong
      else if (t.get? (l ++ [segment])).isSome then .ok (l ++ [segment])
      else .error .notFound

/-- Follows the segments of a path from the place where it starts. -/
def follow (t : FileTree) (absolute : Bool) (segments : List String) : Except FileError Location :=
  segments.foldlM t.step (if absolute then [] else t.here)

/-- The location that a path leads to, where something stands there. -/
def locate (t : FileTree) (p : Path) : Except FileError Location :=
  match p.checkWhole with
  | .error e => .error e
  | .ok () => t.follow p.absolute p.segments

/-- What a path leads to. -/
def entry? (t : FileTree) (p : Path) : Option FileEntry :=
  match t.locate p with
  | .ok l => t.get? l
  | .error _ => none

def contains (t : FileTree) (p : Path) : Bool := (t.entry? p).isSome

/-- The path leads to a directory. -/
def isDirectory (t : FileTree) (p : Path) : Bool := t.entry? p = some .directory

/-- The path leads to a file. -/
def isFile (t : FileTree) (p : Path) : Bool :=
  match t.entry? p with
  | some (.file _) => true
  | _ => false

/-- Follows one segment of a path by the name that its end has from the root. -/
def stepByName (t : FileTree) (l : Location) (segment : String) : Except FileError Location :=
  match t.step l segment with
  | .ok l => .ok l
  | .error e => .error (if (Path.ofLocation (l ++ [segment])).isTooLong then .nameTooLong else e)

/-- The path from the root to what a path leads to. -/
def canonical (t : FileTree) (p : Path) : Except FileError Path :=
  match p.checkName with
  | .error e => .error e
  | .ok () =>
      (p.segments.foldlM t.stepByName (if p.absolute then [] else t.here)).map .ofLocation

theorem foldlM_stepByName {t : FileTree} {segments : List String} {l m : Location}
    (h : segments.foldlM t.step l = .ok m) : segments.foldlM t.stepByName l = .ok m := by
  induction segments generalizing l with
  | nil => exact h
  | cons s ss ih =>
      rw [List.foldlM_cons] at h ⊢
      cases hs : t.step l s with
      | error e => simp [hs, bind, Except.bind] at h
      | ok k =>
          simp only [hs, stepByName, bind, Except.bind] at h ⊢
          exact ih h

/-- Where a path leads somewhere, it has a path from the root. -/
theorem canonical_of_locate {t : FileTree} {p : Path} {l : Location} (h : t.locate p = .ok l) :
    t.canonical p = .ok (.ofLocation l) := by
  simp only [locate, Path.checkWhole] at h
  cases hn : p.checkName with
  | error e => simp [hn] at h
  | ok u =>
      simp only [hn] at h
      split at h
      · simp at h
      · next hw =>
        simp only [canonical, hn, foldlM_stepByName h, Except.map]

/-- The text of the file that a path leads to. -/
def read (t : FileTree) (p : Path) : Except FileError String := do
  match t.get? (← t.locate p) with
  | some (.file (some s)) => return s
  | some (.file none) => throw .notText
  | some .directory => throw .isDirectory
  | none => throw .notFound

/-- Whether a path leads to a directory with nothing in it. -/
def isEmptyDirectory (t : FileTree) (p : Path) : Bool :=
  match t.locate p with
  | .ok l => t.get? l = some .directory && !t.entries.any fun f => f.1.dropLast = l
  | .error _ => false

/-- Makes the directory that a path leads to the working directory. -/
def enter (t : FileTree) (p : Path) : Except FileError FileTree := do
  let l ← t.locate p
  if t.get? l = some .directory then return { t with here := l } else throw .notDirectory

/-- The location in which the last segment of a path is looked up, and that segment. -/
def target (t : FileTree) (p : Path) : Except FileError (Location × String) :=
  match p.segments.getLast? with
  | some name => (t.follow p.absolute p.segments.dropLast).map (·, name)
  | none => if p.absolute then .ok ([], ".") else .error .notFound

/-- Why nothing can be looked up in a location that is no directory. -/
def notSearchable (t : FileTree) (l : Location) : FileError :=
  if (t.get? l).isSome then .notDirectory else .notFound

/-- Whether a segment leads to a place without being its name. -/
def isRelative (segment : String) : Bool := segment = "" || segment = "." || segment = ".."

/-- Makes a directory where a path leads to. -/
def createDirectory (t : FileTree) (p : Path) : Except FileError FileTree := do
  p.checkWhole
  let (dir, name) ← t.target p.trimSlashes
  if hdir : t.get? dir = some .directory then
    if isRelative name then throw .alreadyExists
    else if name.utf8ByteSize > nameLimit then throw .nameTooLong
    else if h : t.get? (dir ++ [name]) = none then
      return t.put dir name .directory hdir (by simp [h])
    else throw .alreadyExists
  else throw (t.notSearchable dir)

/-- Writes a file where a path leads to, in place of one that is there. -/
def write (t : FileTree) (p : Path) (text : Option String) : Except FileError FileTree := do
  p.checkWhole
  let (dir, name) ← t.target p
  if hdir : t.get? dir = some .directory then
    if isRelative name then throw .isDirectory
    else if name.utf8ByteSize > nameLimit then throw .nameTooLong
    else if h : t.get? (dir ++ [name]) = some .directory then throw .isDirectory
    else return t.put dir name (.file text) hdir h
  else throw (t.notSearchable dir)

/-- Makes a directory, and before it those that it is to stand in; a directory that is there is as
good as one that is made. What was made before an error stays. -/
def createDirectories (t : FileTree) (p : Path) : FileTree × Except FileError Unit :=
  let orThere (t : FileTree) (e : FileError) :=
    (t, if t.isDirectory p then .ok () else .error e)
  if p = .empty then (t, .ok ())
  else
    match t.createDirectory p with
    | .ok t => (t, .ok ())
    | .error .notFound =>
        match h : p.parent? with
        | none => (t, .error .notFound)
        | some parent =>
            have := Path.parent?_length_lt h
            match t.createDirectories parent with
            | (t, .error e) => (t, .error e)
            | (t, .ok ()) =>
                match t.createDirectory p with
                | .ok t => (t, .ok ())
                | .error e => orThere t e
    | .error e => orThere t e
termination_by p.segments.length

/-- What stands in a tree but did not stand so in an earlier one. -/
def changesSince (t before : FileTree) : List (Location × FileEntry) :=
  t.entries.filter fun f => before.get? f.1 ≠ some f.2

end FileTree

end MetaAttack
