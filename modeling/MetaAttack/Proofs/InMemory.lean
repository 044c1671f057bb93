import MetaAttack.Project.Load
import MetaAttack.Proofs.Grammar
import MetaAttack.Proofs.Inlining
import MetaAttack.Proofs.Locating

/-!
# Trees in memory

The texts of a tree, each under its path from the root, make a collection of files in memory. In the
tree an include is found by following its path, in memory by its text alone. As long as no include
climbs above the root both find the same file under the same path, so a project that is loaded from
the tree is analyzed alike from memory. Its sources are the files that includes lead to, in
depth-first order.

## Implementation notes

In the tree an include that leads to no file keeps its path as written. This ends the walk, unless
the path has the components of a file that was met before, as with a slash at its end. In memory
such an include is one of that file, so both pass it by.
-/

namespace MetaAttack

open Relation

variable {t : FileTree} {m : MemoryFiles} {p q entry dir : Path} {l : Location} {text : String}
variable {file : SourceFile} {i : Include} {visited : List Path} {items : List (Path × Item)}

namespace FileTree

/-- The texts that the tree holds, under their paths from the root. -/
def texts (t : FileTree) : List (Path × String) :=
  t.entries.filterMap fun
    | (l, .file (some text)) => some (.ofLocation l, text)
    | _ => none

/-- The texts are those of the files at some location. -/
theorem mem_texts_iff :
    (p, text) ∈ t.texts ↔ ∃ l, p = .ofLocation l ∧ t.get? l = some (.file (some text)) := by
  rw [texts, List.mem_filterMap]
  constructor
  · rintro ⟨⟨l, _ | _ | text'⟩, hf, found⟩
    · cases found
    · cases found
    · cases found
      exact ⟨l, rfl, get?_of_mem hf⟩
  · rintro ⟨l, rfl, there⟩
    have below : l ≠ [] := by
      rintro rfl
      rw [get?_root] at there
      cases there
    exact ⟨_, mem_of_get? below there, rfl⟩

/-- Reading a path gives the text of the file that it leads to. -/
theorem read_eq_ok_iff :
    t.read p = .ok text ↔ ∃ l, t.locate p = .ok l ∧ t.get? l = some (.file (some text)) := by
  constructor
  · intro h
    cases located : t.locate p with
    | error e =>
        rw [read, located] at h
        cases h
    | ok l =>
        simp only [read, located, bind, Except.bind] at h
        split at h
        · next there =>
          cases h
          exact ⟨l, rfl, there⟩
        all_goals cases h
  · rintro ⟨l, located, there⟩
    simp only [read, located, there, bind, Except.bind]
    rfl

theorem load_eq_ok_iff :
    t.load p = .ok file ↔ t.read p = .ok file.text ∧ Spec.ofSource file.text = .ok file.spec := by
  obtain ⟨text, spec⟩ := file
  rw [load]
  cases t.read p with
  | error e => exact iff_of_false nofun fun h => nomatch h.1
  | ok text' =>
      dsimp only
      constructor
      · intro h
        split at h
        · cases h
        · next spec' parsed =>
          cases h
          exact ⟨rfl, parsed⟩
      · rintro ⟨same, parsed⟩
        cases same
        rw [parsed]

/-! ### Includes that are followed -/

/-- The file under the first path has an include that leads to a file, whose path from the root is
the second. -/
def Includes (t : FileTree) (p q : Path) : Prop :=
  ∃ file, t.load p = .ok file ∧ ∃ i, .inclusion i ∈ file.spec.items ∧
    t.isFile (p.directory.join (.ofText i.path)) = true ∧
    t.canonical (p.directory.join (.ofText i.path)) = .ok q

/-- What following includes leads to. -/
def Reaches (t : FileTree) : Path → Path → Prop := ReflTransGen t.Includes

/-- No include of the file under the path climbs above the root. -/
def BelowRoot (t : FileTree) (p : Path) : Prop :=
  ∀ file, t.load p = .ok file → ∀ i, .inclusion i ∈ file.spec.items →
    (p.directory.join (.ofText i.path)).route.climbs = 0

/-- The path is that of a location from the root. -/
def Rooted (p : Path) : Prop := ∃ l : Location, l.Proper ∧ p = .ofLocation l

/-- A path of a location is normal. -/
theorem Rooted.normal (h : Rooted p) : p.Normal := by
  obtain ⟨l, proper, rfl⟩ := h
  exact Path.normal_ofLocation proper

/-- Canonical paths are the paths of locations. -/
theorem rooted_of_canonical (proper : t.Proper) (h : t.canonical p = .ok q) : Rooted q := by
  obtain ⟨rfl, names⟩ := canonical_eq proper h
  exact ⟨_, names, rfl⟩

/-- From a rooted file on, all files that are reached are rooted. -/
theorem Reaches.rooted (proper : t.Proper) (start : Rooted entry) (h : t.Reaches entry p) :
    Rooted p := by
  cases h with
  | refl => exact start
  | tail _ edge =>
      obtain ⟨_, _, _, _, _, named⟩ := edge
      exact rooted_of_canonical proper named

/-- A file that can be loaded has its includes looked up below the root. -/
theorem Rooted.absolute_join (h : Rooted p) (loaded : t.load p = .ok file) (q : Path) :
    (p.directory.join q).absolute = true := by
  obtain ⟨l, proper, rfl⟩ := h
  refine Path.absolute_join (Path.absolute_directory proper ?_)
  rintro rfl
  obtain ⟨l, located, there⟩ := read_eq_ok_iff.mp (load_eq_ok_iff.mp loaded).1
  rw [locate_eq located, Path.place_ofLocation proper, get?_root] at there
  cases there

/-- An include of a file is resolved to its canonical path. -/
theorem resolve_of_isFile (h : t.isFile (dir.join (.ofText i.path)) = true) :
    t.canonical (dir.join (.ofText i.path)) = .ok (t.resolve [] dir i.path) := by
  obtain ⟨q, -, named⟩ := canonical_mem_paths h
  have found : t.resolve [] dir i.path = q := by
    rw [resolve, List.map_singleton, List.find?_singleton, if_pos h]
    dsimp only
    rw [named]
    rfl
  rw [found, named]

/-- Any other include keeps its path as written. -/
theorem resolve_of_not_isFile (h : t.isFile (dir.join (.ofText i.path)) = false) :
    t.resolve [] dir i.path = dir.join (.ofText i.path) := by
  rw [resolve, List.map_singleton, List.find?_singleton, if_neg (by simp [h])]

/-- What can be loaded is a file, so it was resolved as one. -/
theorem isFile_of_load_resolve (h : t.load (t.resolve [] dir i.path) = .ok file) :
    t.isFile (dir.join (.ofText i.path)) = true := by
  by_contra missing
  rw [resolve_of_not_isFile (Bool.eq_false_iff.mpr missing)] at h
  exact missing (isFile_of_read (load_eq_ok_iff.mp h).1)

/-! ### One include in the tree and in memory -/

section Include

variable (proper : t.Proper) (start : Rooted entry) (level : ∀ p, t.Reaches entry p → t.BelowRoot p)
variable (reached : t.Reaches entry p) (loaded : t.load p = .ok file)
variable (hi : .inclusion i ∈ file.spec.items)

include proper start level reached loaded hi

/-- An include that leads to a file leads to the path that normalizing gives. -/
theorem resolve_eq_target (found : t.isFile (p.directory.join (.ofText i.path)) = true) :
    t.resolve [] p.directory i.path = MemoryFiles.target p.directory i := by
  have absolute := (reached.rooted proper start).absolute_join loaded (.ofText i.path)
  have named := (canonical_eq proper (resolve_of_isFile found)).1
  rw [named, MemoryFiles.target,
    Path.normalize_of_climbs_eq_zero absolute (level p reached file loaded i hi)]

/-- An include of a file that was reached reaches the path that is named by text. -/
theorem reaches_target (found : t.isFile (p.directory.join (.ofText i.path)) = true) :
    t.Reaches entry (MemoryFiles.target p.directory i) := by
  refine reached.tail ⟨file, loaded, i, hi, found, ?_⟩
  rw [resolve_of_isFile found,
    resolve_eq_target proper start level reached loaded hi found]

/-- An include that is passed by in the tree is passed by in memory. -/
theorem met_in_memory (rooted : ∀ q ∈ visited, Rooted q)
    (met : visited.any (t.resolve [] p.directory i.path).sameAs = true) :
    visited.any (m.loader.resolve p.directory i.path).sameAs = true := by
  refine (MemoryFiles.visited_target_iff fun q hq => (rooted q hq).normal).mpr ?_
  obtain ⟨q, hq, same⟩ := List.any_eq_true.mp met
  cases found : t.isFile (p.directory.join (.ofText i.path)) with
  | true =>
      rw [resolve_eq_target proper start level reached loaded hi found] at same
      have normal : (MemoryFiles.target p.directory i).Normal := Path.normal_normalize _
      exact (normal.sameAs_iff (rooted q hq).normal).mp same ▸ hq
  | false =>
      -- only the text of the path says that it is met
      rw [resolve_of_not_isFile found] at same
      obtain ⟨l, names, rfl⟩ := rooted q hq
      rw [MemoryFiles.target, Path.normalize_of_sameAs names same]
      exact hq

end Include

/-! ### Walks in the tree and in memory -/

/-- The items stand in files that includes lead to, each with the directory of its file. -/
def Pending (t : FileTree) (entry : Path) (items : List (Path × Item)) : Prop :=
  ∀ x ∈ items, ∀ i, x.2 = .inclusion i → ∃ p file, t.Reaches entry p ∧ t.load p = .ok file ∧
    .inclusion i ∈ file.spec.items ∧ x.1 = p.directory

/-- Loading a file that was reached adds pending items only of files that were reached. -/
theorem pending_of_load (reached : t.Reaches entry p) (loaded : t.load p = .ok file) :
    t.Pending entry (file.spec.items.map fun item => (p.directory, item)) := by
  intro x hx i inclusion
  obtain ⟨item, hitem, rfl⟩ := List.mem_map.mp hx
  exact ⟨p, file, reached, loaded, inclusion ▸ hitem, rfl⟩

theorem Pending.tail {x : Path × Item} (h : t.Pending entry (x :: items)) :
    t.Pending entry items :=
  fun y hy => h y (List.mem_cons_of_mem _ hy)

/-- Pending items of two files. -/
theorem Pending.append {more : List (Path × Item)} (h : t.Pending entry items)
    (h' : t.Pending entry more) : t.Pending entry (items ++ more) := by
  intro x hx
  rcases List.mem_append.mp hx with hx | hx
  · exact h x hx
  · exact h' x hx

/-- The texts of the tree are in the collection. -/
def Mirrored (t : FileTree) (m : MemoryFiles) : Prop :=
  ∀ l text, l.Proper → t.get? l = some (.file (some text)) → m.text? (.ofLocation l) = some text

/-- What can be loaded from the tree is loaded from memory. -/
theorem Mirrored.load (mirrored : t.Mirrored m) (rooted : Rooted p) (loaded : t.load p = .ok file) :
    m.load p = .ok file := by
  obtain ⟨l, names, rfl⟩ := rooted
  obtain ⟨text, parsed⟩ := load_eq_ok_iff.mp loaded
  obtain ⟨k, located, there⟩ := read_eq_ok_iff.mp text
  rw [locate_eq located, Path.place_ofLocation names] at there
  exact MemoryFiles.load_eq_ok_iff.mpr ⟨mirrored l file.text names there, parsed⟩

/-- Where the walk in the tree comes to its end, the walk in memory is the same, and all that it
visits was reached by includes. -/
theorem walk_in_memory (proper : t.Proper) (start : Rooted entry)
    (level : ∀ p, t.Reaches entry p → t.BelowRoot p) (mirrored : t.Mirrored m)
    (pending : t.Pending entry items) (before : ∀ q ∈ visited, t.Reaches entry q)
    (ends : (walk (t.loader []) visited items).fatal = none) :
    walk m.loader visited items = walk (t.loader []) visited items ∧
      ∀ q ∈ (walk (t.loader []) visited items).visited, t.Reaches entry q := by
  induction visited, items using walk_induction (t.loader []) with
  | done visited =>
      rw [walk, walk]
      exact ⟨rfl, before⟩
  | declaration visited dir d rest ih =>
      rw [walk] at ends
      obtain ⟨same, reached⟩ := ih pending.tail before ends
      rw [walk, walk, same]
      exact ⟨rfl, reached⟩
  | again visited dir i rest met ih =>
      obtain ⟨p, file, reached, loaded, hi, rfl⟩ := pending _ List.mem_cons_self i rfl
      have rooted : ∀ q ∈ visited, Rooted q := fun q hq => (before q hq).rooted proper start
      have met' := met_in_memory (m := m) proper start level reached loaded hi rooted met
      rw [walk_of_visited rest met] at ends ⊢
      rw [walk_of_visited rest met']
      exact ih pending.tail before ends
  | refused visited dir i rest e new refused =>
      rw [walk_of_error rest new refused] at ends
      cases ends
  | enter visited dir i rest file new loaded ih =>
      obtain ⟨p, including, reached, loaded', hi, rfl⟩ := pending _ List.mem_cons_self i rfl
      have found := isFile_of_load_resolve loaded
      have same : m.loader.resolve p.directory i.path = (t.loader []).resolve p.directory i.path :=
        (resolve_eq_target proper start level reached loaded' hi found).symm
      have there : t.Reaches entry ((t.loader []).resolve p.directory i.path) :=
        same ▸ reaches_target proper start level reached loaded' hi found
      have new' : ¬ visited.any (m.loader.resolve p.directory i.path).sameAs = true := same ▸ new
      have served : m.loader.load (m.loader.resolve p.directory i.path) = .ok file :=
        same ▸ mirrored.load (there.rooted proper start) loaded
      have next := (pending_of_load there loaded).append pending.tail
      have seen : ∀ q ∈ visited ++ [(t.loader []).resolve p.directory i.path], t.Reaches entry q :=
        List.forall_mem_append.mpr ⟨before, List.forall_mem_singleton.mpr there⟩
      rw [walk_of_load rest new loaded] at ends ⊢
      obtain ⟨walked, reached⟩ := ih next seen ends
      rw [walk_of_load rest new' served, same]
      dsimp only
      rw [walked]
      exact ⟨rfl, reached⟩

/-! ### The files that includes lead to -/

/-- What includes lead to in the tree they lead to in memory. -/
theorem Reaches.in_memory (proper : t.Proper) (start : Rooted entry)
    (level : ∀ p, t.Reaches entry p → t.BelowRoot p) (mirrored : t.Mirrored m)
    (h : t.Reaches entry q) : m.Reaches entry q := by
  induction h with
  | refl => exact .refl
  | @tail p q reached edge ih =>
      have reached : t.Reaches entry p := reached
      obtain ⟨file, loaded, i, hi, found, named⟩ := edge
      obtain ⟨text, parsed⟩ :=
        MemoryFiles.load_eq_ok_iff.mp (mirrored.load (reached.rooted proper start) loaded)
      have target : MemoryFiles.target p.directory i = q := by
        rw [← resolve_eq_target proper start level reached loaded hi found]
        exact Except.ok.inj ((resolve_of_isFile found).symm.trans named)
      exact ih.tail ⟨file.spec, ⟨file.text, text, parsed⟩, i, hi, target⟩

end FileTree

/-- A walk that comes to its end has read what it has visited, in this order. -/
theorem visited_walk (l : Loader) (ends : (walk l visited items).fatal = none) :
    (walk l visited items).visited =
      visited ++ (walk l visited items).sources.map Prod.fst := by
  induction visited, items using walk_induction l with
  | done visited =>
      rw [walk]
      exact (List.append_nil visited).symm
  | declaration visited dir d rest ih =>
      rw [walk] at ends ⊢
      exact ih ends
  | again visited dir i rest met ih =>
      rw [walk_of_visited rest met] at ends ⊢
      exact ih ends
  | refused visited dir i rest e new refused =>
      rw [walk_of_error rest new refused] at ends
      cases ends
  | enter visited dir i rest file new loaded ih =>
      rw [walk_of_load rest new loaded] at ends ⊢
      have more := ih ends
      rw [List.append_assoc] at more
      exact more

namespace MemoryFiles

/-- Every path under which a source is added has one. -/
theorem isSome_text?_foldl_insert (files : List (Path × String))
    (h : (m.text? p).isSome ∨ ∃ f ∈ files, f.1.normalize = p) :
    ((files.foldl (fun m f => m.insert f.1 f.2) m).text? p).isSome := by
  induction files generalizing m with
  | nil => simpa using h
  | cons f files ih =>
      refine ih ?_
      rw [text?_insert]
      by_cases here : f.1.normalize = p
      · rw [if_pos here]
        exact .inl rfl
      · rw [if_neg here]
        rcases h with before | ⟨g, hg, under⟩
        · exact .inl before
        · rcases List.mem_cons.mp hg with rfl | hg
          · exact absurd under here
          · exact .inr ⟨g, hg, under⟩

/-- An analysis that succeeds visits what the file unfolds to. -/
theorem visited_walk_of_unfolded {order : List Path} {flat : List Declaration} {a : Analysis}
    (normal : p.normalize = p) (loaded : m.load p = .ok file) (h : m.Unfolded p order flat)
    (analyzed : m.analyze p = .ok a) :
    (walk m.loader [p] (file.spec.items.map fun item => (p.directory, item))).visited =
      p :: order := by
  have whole : m.Unfolded p.normalize order flat := by rwa [normal]
  have decided := analyze_of_unfolded whole
  rw [normal, analyzed] at decided
  have usable : ∀ q ∈ p :: order, m.refusal? q = none := by
    split at decided
    · cases decided
    · next none => exact List.findSome?_eq_none_iff.mp none
  have first : ∀ q ∈ [p], q.Normal := fun q hq => List.mem_singleton.mp hq ▸ ⟨p, normal⟩
  have unfolded := Unfolds.loads h first (List.forall_mem_cons.mp usable).2
  rw [itemsOf_of_load loaded] at unfolded
  exact unfolded.walk_eq.2.1

end MemoryFiles

namespace FileTree

/-- The collection of the texts of a tree has each of them under its path. -/
theorem mirrored_ofList (proper : t.Proper) {files : List (Path × String)}
    (same : ∀ f, f ∈ files ↔ f ∈ t.texts) : t.Mirrored (.ofList files) := by
  intro l text names there
  have hf : (.ofLocation l, text) ∈ files := (same _).mpr (mem_texts_iff.mpr ⟨l, rfl, there⟩)
  have found := MemoryFiles.isSome_text?_foldl_insert (m := .empty) files
    (.inr ⟨_, hf, Path.normalize_ofLocation names⟩)
  obtain ⟨text', found⟩ := Option.isSome_iff_exists.mp found
  rcases Path.exists_of_text?_foldl_insert found with none | ⟨⟨q, _⟩, hg, under, rfl⟩
  · cases none
  · obtain ⟨k, rfl, there'⟩ := mem_texts_iff.mp ((same _).mp hg)
    have under : (Path.ofLocation k).normalize = .ofLocation l := under
    rw [Path.normalize_ofLocation (proper.of_get? there'), Path.ofLocation_inj] at under
    rw [under, there] at there'
    cases there'
    exact found

end FileTree

/-! ### Projects -/

/-- An analysis is decided by the walk. -/
theorem Spec.analyzeAt_eq (spec : Spec) (l : Loader) (p : Path) :
    spec.analyzeAt l p =
      (let w := walk l [p] (spec.items.map fun item => (p.directory, item))
      match w.fatal with
      | some e => .error e
      | none => .ok ⟨w.sources, .ofDeclared (w.declarations.foldl Declared.declare .empty)⟩) :=
  rfl

/-- Loaders whose walks come to the same give the same analysis. -/
theorem Spec.analyzeAt_congr {spec : Spec} {l l' : Loader}
    (h : walk l [p] (spec.items.map fun item => (p.directory, item)) =
      walk l' [p] (spec.items.map fun item => (p.directory, item))) :
    spec.analyzeAt l p = spec.analyzeAt l' p := by
  rw [analyzeAt_eq, analyzeAt_eq, h]

theorem Spec.analyzeAt_eq_ok_iff {spec : Spec} {l : Loader} {r : Report} :
    spec.analyzeAt l p = .ok r ↔
      (let w := walk l [p] (spec.items.map fun item => (p.directory, item))
      w.fatal = none ∧
        ⟨w.sources, .ofDeclared (w.declarations.foldl Declared.declare .empty)⟩ = r) := by
  rw [analyzeAt_eq]
  dsimp only
  cases (walk l [p] _).fatal with
  | none => simp
  | some e => simp

/-- A project is loaded if its file is, and the walk over what it includes comes to its end. -/
theorem Project.load_eq_ok_iff {project : Project} {manifest : Manifest} {root : Path}
    {includeDirs : List Path} :
    load t manifest root p includeDirs = .ok project ↔
      ∃ q file r, t.canonical p = .ok q ∧ t.load q = .ok file ∧
        file.spec.analyzeAt (t.loader includeDirs) q = .ok r ∧
        project = ⟨manifest, root, q, (q, file.text) :: r.sources, r.analysis⟩ := by
  constructor
  · intro h
    rw [load] at h
    split at h
    · cases h
    · next q named =>
      split at h
      · cases h
      · next text read =>
        split at h
        · cases h
        · next spec parsed =>
          split at h
          · cases h
          · next r analyzed =>
            cases h
            exact ⟨q, ⟨text, spec⟩, r, named, FileTree.load_eq_ok_iff.mpr ⟨read, parsed⟩,
              analyzed, rfl⟩
  · rintro ⟨q, file, r, named, loaded, analyzed, rfl⟩
    obtain ⟨read, parsed⟩ := FileTree.load_eq_ok_iff.mp loaded
    simp only [load, named, read, parsed, analyzed]

/-- Trees are analyzed alike from memory. If a file of the tree is loaded as a project, and no
include of the files that it leads to climbs above the root, then the texts of the tree under their
paths from the root are analyzed with the same result, starting at the same path. The sources of the
project are, one after the other and without repetition, the file itself and the files that includes
lead to, in the order in which unfolding the includes comes to them. -/
theorem Project.ofFile_in_memory (proper : t.Proper) {project : Project}
    (loaded : Project.ofFile t p = .ok project)
    (level : ∀ q, t.Reaches project.entry q → t.BelowRoot q) {files : List (Path × String)}
    (same : ∀ f, f ∈ files ↔ f ∈ t.texts) :
    t.canonical p = .ok project.entry ∧
    (MemoryFiles.ofList files).analyze project.entry = .ok project.analysis ∧
    (∃ order flat, (MemoryFiles.ofList files).Unfolded project.entry order flat ∧
      project.sources.map Prod.fst = project.entry :: order) ∧
    (project.sources.map Prod.fst).Nodup ∧
    ∀ q, q ∈ project.sources.map Prod.fst ↔ t.Reaches project.entry q := by
  obtain ⟨entry, file, r, named, entered, analyzed, rfl⟩ := load_eq_ok_iff.mp loaded
  dsimp only at level ⊢
  have start : FileTree.Rooted entry := FileTree.rooted_of_canonical proper named
  have mirrored := FileTree.mirrored_ofList proper same
  have served := mirrored.load start entered
  have normal : entry.normalize = entry := by
    obtain ⟨l, names, rfl⟩ := start
    exact Path.normalize_ofLocation names
  obtain ⟨ends, report⟩ := Spec.analyzeAt_eq_ok_iff.mp analyzed
  have pending : t.Pending entry _ := FileTree.pending_of_load .refl entered
  have first : ∀ q ∈ [entry], t.Reaches entry q := by
    intro q hq
    exact List.mem_singleton.mp hq ▸ .refl
  obtain ⟨walks, reached⟩ :=
    FileTree.walk_in_memory proper start level mirrored pending first ends
  have inMemory : (MemoryFiles.ofList files).analyze entry = .ok r.analysis := by
    rw [MemoryFiles.analyze_of_load (normal.symm ▸ served), normal, Spec.analyzeAt_congr walks,
      analyzed]
    rfl
  obtain ⟨order, flat, unfolded⟩ := (MemoryFiles.ofList files).exists_unfolds [entry]
    entry.directory ((MemoryFiles.ofList files).itemsOf entry)
  have visited := MemoryFiles.visited_walk_of_unfolded normal served unfolded inMemory
  rw [walks] at visited
  have keys : ((entry, file.text) :: r.sources).map Prod.fst = entry :: order := by
    rw [List.map_cons, ← visited, visited_walk _ ends, ← report]
    rfl
  refine ⟨named, inMemory, ⟨order, flat, unfolded, keys⟩, ?_, fun q => ?_⟩
  · rw [keys]
    exact unfolded.nodup (List.nodup_singleton _)
  · rw [keys]
    constructor
    · intro hq
      exact reached q (visited ▸ hq)
    · intro h
      exact (MemoryFiles.mem_unfolded_iff unfolded).mpr (h.in_memory proper start level mirrored)

/-! ### A file that is included by a detour -/

namespace Detour

/-- An include that goes into a directory, out of it and into it again. -/
def detour : Include := ⟨"lib/../lib/part.mal", ⟨0, 29, 1⟩⟩

/-- The file with the include. -/
def main : SourceFile := ⟨"include \"lib/../lib/part.mal\"", ⟨[.inclusion detour]⟩⟩

/-- A tree with both files. -/
def tree : FileTree where
  entries := [(["main.mal"], .file (some main.text)), (["lib"], .directory),
    (["lib", "part.mal"], .file (some ""))]
  here := []
  nodup := by decide
  parent_mem := by decide

/-- Where the file with the include stands. -/
def mainPath : Path := .ofLocation ["main.mal"]

/-- Where the included file stands. -/
def partPath : Path := .ofLocation ["lib", "part.mal"]

/-- The path that the include is followed by. -/
def path : Path := mainPath.directory.join (.ofText detour.path)

theorem load_main : tree.load mainPath = .ok main := by
  have located : tree.locate mainPath = .ok ["main.mal"] := FileTree.locate_eq_ok_iff.mpr
    ⟨FileTree.checkWhole_eq_ok_iff.mpr (by decide), by decide⟩
  have lexed : lexemes main.text =
      .ok [⟨.keyword .inclusion, ⟨0, 7, 1⟩⟩, ⟨.string "lib/../lib/part.mal", ⟨8, 29, 1⟩⟩] := by
    decide +kernel
  have derived : Many (Item.Derives .separate)
      ([⟨.keyword .inclusion, ⟨0, 7, 1⟩⟩, ⟨.string "lib/../lib/part.mal", ⟨8, 29, 1⟩⟩] ++ [])
      main.spec.items := .cons .inclusion .nil
  exact FileTree.load_eq_ok_iff.mpr
    ⟨FileTree.read_eq_ok_iff.mpr ⟨_, located, by decide⟩, Spec.ofSource_of_derives lexed derived⟩

/-- The included file is empty. -/
theorem load_part : tree.load partPath = .ok ⟨"", ⟨[]⟩⟩ := by
  have located : tree.locate partPath = .ok ["lib", "part.mal"] := FileTree.locate_eq_ok_iff.mpr
    ⟨FileTree.checkWhole_eq_ok_iff.mpr (by decide), by decide⟩
  have lexed : lexemes "" = .ok [] := by
    rw [lexemes, scan, String.toList_empty, pieces]
    rfl
  exact FileTree.load_eq_ok_iff.mpr
    ⟨FileTree.read_eq_ok_iff.mpr ⟨_, located, by decide⟩, Spec.ofSource_of_derives lexed .nil⟩

/-- The detour leads to the included file. -/
theorem locate_path : tree.locate path = .ok ["lib", "part.mal"] :=
  FileTree.locate_eq_ok_iff.mpr
    ⟨FileTree.checkWhole_eq_ok_iff.mpr (by decide), by decide⟩

theorem canonical_path : tree.canonical path = .ok partPath :=
  FileTree.canonical_of_locate locate_path

/-- These two files are all that is reached. -/
theorem eq_of_reaches (h : tree.Reaches mainPath q) : q = mainPath ∨ q = partPath := by
  induction h with
  | refl => exact .inl rfl
  | tail _ edge ih =>
      obtain ⟨file, loaded, i, hi, -, named⟩ := edge
      rcases ih with rfl | rfl
      · cases load_main.symm.trans loaded
        obtain rfl := Item.inclusion.inj (List.mem_singleton.mp hi)
        exact .inr (Except.ok.inj (named.symm.trans canonical_path))
      · cases load_part.symm.trans loaded
        cases hi

/-- No detour climbs above the root. -/
theorem belowRoot (h : tree.Reaches mainPath q) : tree.BelowRoot q := by
  intro file loaded i hi
  rcases eq_of_reaches h with rfl | rfl
  · cases load_main.symm.trans loaded
    obtain rfl := Item.inclusion.inj (List.mem_singleton.mp hi)
    decide
  · cases load_part.symm.trans loaded
    cases hi

/-- Both files can be loaded. -/
theorem fatal_walk : (walk (tree.loader []) [mainPath]
    (main.spec.items.map fun item => (mainPath.directory, item))).fatal = none := by
  have found : tree.isFile path = true :=
    FileTree.isFile_iff.mpr ⟨_, some "", locate_path, by decide⟩
  have named : tree.canonical path = .ok (tree.resolve [] mainPath.directory detour.path) :=
    FileTree.resolve_of_isFile found
  have leads : (tree.loader []).resolve mainPath.directory detour.path = partPath :=
    Except.ok.inj (named.symm.trans canonical_path)
  have new : ¬ [mainPath].any
      ((tree.loader []).resolve mainPath.directory detour.path).sameAs = true := by
    rw [leads]
    decide
  have loaded : (tree.loader []).load
      ((tree.loader []).resolve mainPath.directory detour.path) = .ok ⟨"", ⟨[]⟩⟩ :=
    leads ▸ load_part
  refine (congrArg Walk.fatal (walk_of_load [] new loaded)).trans ?_
  rw [List.map_nil, List.append_nil, walk]

end Detour

open Detour in
/-- The project with the detour, loaded from the tree and from a collection of its texts. -/
theorem Project.ofFile_in_memory_detour :
    ∃ project, ofFile tree (.ofText "main.mal") = .ok project ∧
      (∀ q, tree.Reaches project.entry q → tree.BelowRoot q) ∧
      (MemoryFiles.ofList tree.texts).analyze project.entry = .ok project.analysis ∧
      partPath ∈ project.sources.map Prod.fst := by
  have proper : tree.Proper := by
    unfold FileTree.Proper Location.Proper
    decide
  have located : tree.locate (.ofText "main.mal") = .ok ["main.mal"] :=
    FileTree.locate_eq_ok_iff.mpr
      ⟨FileTree.checkWhole_eq_ok_iff.mpr (by decide), by decide⟩
  have analyzed := Spec.analyzeAt_eq_ok_iff.mpr ⟨fatal_walk, rfl⟩
  have loaded : ofFile tree (.ofText "main.mal") = .ok _ := load_eq_ok_iff.mpr
    ⟨mainPath, main, _, FileTree.canonical_of_locate located, load_main, analyzed, rfl⟩
  have level : ∀ q, tree.Reaches mainPath q → tree.BelowRoot q := fun q => belowRoot
  obtain ⟨-, same, -, -, keys⟩ := ofFile_in_memory proper loaded level fun f => Iff.rfl
  refine ⟨_, loaded, level, same, (keys partPath).mpr (.single ?_)⟩
  exact ⟨main, load_main, detour, List.mem_cons_self,
    FileTree.isFile_iff.mpr ⟨_, some "", locate_path, by decide⟩, canonical_path⟩

end MetaAttack
