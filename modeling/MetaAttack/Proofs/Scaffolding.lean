import MetaAttack.CommandLine.Run
import MetaAttack.Proofs.Example
import MetaAttack.Proofs.InMemory
import MetaAttack.Proofs.Searching

/-!
# Setting up and checking

A new project is found again under the directory that it was set up in: its manifest and its example
stand there, and the paths that a check makes of the path of the directory lead to them. What the
check says is thus decided by the example alone, which is without fault for every name with escaped
quotes and backslashes.

## Implementation notes

A check reads the example under its path from the root. That path can be too long where the one
that the example was written under is not, so its length is a hypothesis of its own. The empty path
cannot be looked up, although a project can be set up under it.
-/

namespace MetaAttack

variable {t t' : FileTree} {s : Scaffold} {l : Location}

/-! ### Results of commands -/

/-- A project without errors and warnings passes whatever is denied. -/
theorem Project.verdict_of_nil {p : Project} {denyWarnings : Bool} (errors : p.analysis.errors = [])
    (warnings : p.analysis.warnings = []) : p.verdict denyWarnings = .ok () := by
  rw [verdict, Analysis.hasError, errors, Analysis.hasWarning, warnings]
  simp

theorem Command.result_check {p : Path} {denyWarnings : Bool} {project : Project}
    (loaded : Project.ofPath t p = .ok project) :
    (run t (.check p denyWarnings)).result = project.verdict denyWarnings := by
  rw [run, loaded]

theorem Command.result_check_of_error {p : Path} {denyWarnings : Bool} {e : LoadError}
    (failed : Project.ofPath t p = .error e) :
    (run t (.check p denyWarnings)).result = .error (.load e) := by
  rw [run, failed]

theorem Command.run_init (s : Scaffold) (t : FileTree) :
    (run t (.init s.name s.dir)).tree = (s.build t).1 ∧
      (run t (.init s.name s.dir)).result = (s.build t).2 := by
  obtain ⟨name, dir⟩ := s
  rw [run]
  rcases (Scaffold.mk name dir).build t with ⟨t', _ | _⟩ <;> exact ⟨rfl, rfl⟩

namespace Scaffold

/-! ### Paths of a new project -/

theorem manifestPath_eq (s : Scaffold) :
    s.manifestPath = ⟨s.dir.absolute, s.dir.trunk ++ ["mal.toml"]⟩ :=
  s.dir.join_fileName

theorem sourceDir_eq (s : Scaffold) :
    s.sourceDir = ⟨s.dir.absolute, s.dir.trunk ++ ["src"]⟩ := by
  have name : s.manifest.source.dir = ⟨false, ["src"]⟩ := by
    change SourceSettings.default.dir = _
    decide
  rw [sourceDir, name, Path.join_of_relative rfl (List.cons_ne_nil _ _)]

theorem entryPath_manifest (s : Scaffold) :
    s.manifest.entryPath = ⟨false, ["src", "main.mal"]⟩ := by
  change SourceSettings.default.dir.join SourceSettings.default.entry = _
  decide

theorem entryPath_eq (s : Scaffold) :
    s.entryPath = ⟨s.dir.absolute, s.dir.trunk ++ ["src", "main.mal"]⟩ := by
  rw [entryPath, entryPath_manifest, Path.join_of_relative rfl (List.cons_ne_nil _ _)]

/-! ### Setting up -/

theorem build_eq_ok_iff : s.build t = (t', .ok ()) ↔
    (t.contains s.dir = true → t.isEmptyDirectory s.dir = true) ∧
    ∃ made noted, t.createDirectories s.sourceDir = (made, .ok ()) ∧
      made.write s.manifestPath (some s.manifest.text) = .ok noted ∧
      noted.write s.entryPath (some s.source) = .ok t' := by
  constructor
  · intro h
    rw [build] at h
    split at h
    · cases h
    · next free =>
      simp only [Bool.and_eq_true, Bool.not_eq_true', not_and, Bool.not_eq_false] at free
      refine ⟨free, ?_⟩
      split at h
      · cases h
      · next made hmade =>
        split at h
        · cases h
        · next noted hnoted =>
          split at h
          · cases h
          · next done hdone =>
            cases h
            exact ⟨made, noted, hmade, hnoted, hdone⟩
  · rintro ⟨free, made, noted, hmade, hnoted, hdone⟩
    rw [build, if_neg (by simpa using free), hmade]
    dsimp only
    rw [hnoted]
    dsimp only
    rw [hdone]

/-- The directory of the project leads to the location, where its files stand as they were set
up. -/
structure Stands (s : Scaffold) (t : FileTree) (l : Location) : Prop where
  dir : t.follow s.dir.absolute s.dir.segments = .ok l
  manifest : t.get? (l ++ ["mal.toml"]) = some (.file (some s.manifest.text))
  source : t.get? (l ++ ["src", "main.mal"]) = some (.file (some s.source))

theorem checkWhole_of_entryPath (whole : s.entryPath.checkWhole = .ok ()) :
    s.sourceDir.checkWhole = .ok () ∧ s.manifestPath.checkWhole = .ok () := by
  rw [entryPath_eq, FileTree.checkWhole_eq_ok_iff, Path.utf8ByteSize_text] at whole
  obtain ⟨zero, -, short⟩ := whole
  have clean : ∀ r ∈ s.dir.trunk, '\x00' ∉ r.toList :=
    fun r hr => zero r (List.mem_append_left _ hr)
  have size : "src".utf8ByteSize = 3 ∧ "mal.toml".utf8ByteSize = 8 ∧
      "main.mal".utf8ByteSize = 8 := by
    decide
  rw [sourceDir_eq, manifestPath_eq, FileTree.checkWhole_eq_ok_iff, FileTree.checkWhole_eq_ok_iff,
    Path.utf8ByteSize_text, Path.utf8ByteSize_text]
  simp only [List.map_append, List.sum_append, List.length_append, List.map_cons, List.map_nil,
    List.sum_cons, List.sum_nil, List.length_cons, List.length_nil, size] at short ⊢
  refine ⟨⟨?_, ?_, by omega⟩, ?_, ?_, by omega⟩
  · exact List.forall_mem_append.mpr ⟨clean, by decide⟩
  · simp [Path.empty]
  · exact List.forall_mem_append.mpr ⟨clean, by decide⟩
  · simp [Path.empty]

open FileTree in
/-- A project can be set up in any directory that is empty, if its paths are not too long. -/
theorem exists_build (located : t.locate s.dir = .ok l) (empty : t.isEmptyDirectory s.dir = true)
    (whole : s.entryPath.checkWhole = .ok ()) : ∃ t', s.build t = (t', .ok ()) := by
  obtain ⟨wholeDir, wholeManifest⟩ := checkWhole_of_entryPath whole
  obtain ⟨dir, none⟩ := get?_of_isEmptyDirectory located empty
  have trunk : t.follow s.dir.absolute s.dir.trunk = .ok l :=
    (foldlM_trunk_iff dir).mpr (locate_eq_ok_iff.mp located).2
  -- each step makes what the next one stands in, and leaves free the name that is to come
  have target : t.target s.sourceDir.trimSlashes = .ok (l, "src") := by
    rw [sourceDir_eq, Path.trimSlashes_concat (by decide), target_concat_eq_ok_iff]
    exact ⟨trunk, rfl⟩
  obtain ⟨made, hmade, inMade⟩ :=
    exists_createDirectory wholeDir target rfl (by decide) dir (none "src" [])
  have grown := growsTo_createDirectory hmade
  have target : made.target s.manifestPath = .ok (l, "mal.toml") := by
    rw [manifestPath_eq, target_concat_eq_ok_iff]
    exact ⟨grown.follow trunk, rfl⟩
  have free : made.get? (l ++ ["mal.toml"]) ≠ some .directory := by
    rw [inMade, if_neg (by simp), none "mal.toml" []]
    exact nofun
  obtain ⟨noted, hnoted, inNoted⟩ := exists_write (some s.manifest.text) wholeManifest target rfl
    (by decide) (grown.directory l dir) free
  have grown := grown.trans (growsTo_write hnoted)
  have src : noted.get? (l ++ ["src"]) = some .directory := by
    rw [inNoted, if_neg (by simp), inMade, if_pos rfl]
  have target : noted.target s.entryPath = .ok (l ++ ["src"], "main.mal") := by
    have names : Location.Proper ["src"] := by
      unfold Location.Proper
      decide
    have last := follow_names src names (by decide)
    rw [entryPath_eq, List.append_cons, target_concat_eq_ok_iff]
    exact ⟨(foldlM_append (grown.follow trunk)).trans last, rfl⟩
  have free : noted.get? ((l ++ ["src"]) ++ ["main.mal"]) ≠ some .directory := by
    rw [inNoted, if_neg (by simp), inMade, if_neg (by simp), List.append_assoc]
    exact (none "src" ["main.mal"]).symm ▸ nofun
  obtain ⟨done, hdone, -⟩ := exists_write (some s.source) whole target rfl (by decide) src free
  refine ⟨done, build_eq_ok_iff.mpr ⟨fun _ => empty, made, noted, ?_, hnoted, hdone⟩⟩
  have below : s.sourceDir ≠ .empty := by
    rw [sourceDir_eq]
    simp [Path.empty]
  rw [createDirectories, if_neg below, hmade]

/-- Below the directory of the project, its other directory is where the source stands. -/
theorem eq_of_follow_src {dir src : Location}
    (trunk : t.follow s.dir.absolute s.dir.trunk = .ok dir)
    (below : t.follow s.dir.absolute (s.dir.trunk ++ ["src"]) = .ok src) :
    src = dir ++ ["src"] := by
  obtain ⟨k, first, last⟩ := FileTree.exists_of_foldlM_append below
  obtain rfl : dir = k := Except.ok.inj (trunk.symm.trans first)
  exact FileTree.follow_eq last

open FileTree in
/-- A project that was set up stands where its directory leads to. -/
theorem exists_stands_of_build (built : s.build t = (t', .ok ())) :
    ∃ l, s.Stands t' l ∧ t'.here = t.here ∧ s.manifestPath.checkWhole = .ok () := by
  obtain ⟨-, made, noted, hmade, hnoted, hdone⟩ := build_eq_ok_iff.mp built
  have grown : t.GrowsTo made := by
    have h := growsTo_createDirectories t s.sourceDir
    rwa [hmade] at h
  have grown' := growsTo_write hnoted
  have grown'' := growsTo_write hdone
  obtain ⟨whole, dir, name, target, -, -, hdir, free, rfl⟩ := write_eq_ok_iff.mp hnoted
  rw [manifestPath_eq, target_concat_eq_ok_iff] at target
  obtain ⟨trunk, rfl⟩ := target
  obtain ⟨-, src, name, target, -, -, hsrc, free', rfl⟩ := write_eq_ok_iff.mp hdone
  rw [entryPath_eq, List.append_cons, target_concat_eq_ok_iff] at target
  obtain ⟨below, rfl⟩ := target
  obtain rfl := eq_of_follow_src (grown'.follow trunk) below
  refine ⟨dir, ⟨?_, ?_, ?_⟩, ?_, whole⟩
  · have found := grown''.directory dir (grown'.directory dir hdir)
    exact (foldlM_trunk_iff found).mp (grown''.follow (grown'.follow trunk))
  · have other : dir ++ ["mal.toml"] ≠ (dir ++ ["src"]) ++ ["main.mal"] := by
      rw [List.append_assoc, Ne, List.append_cancel_left_eq]
      decide
    rw [get?_put, if_neg other, get?_put, if_pos rfl]
  · rw [get?_put, List.append_assoc]
    exact if_pos rfl
  · exact grown''.here.trans (grown'.here.trans grown.here)

/-! ### Finding the project -/

theorem nameable_entry : Location.Nameable ["src", "main.mal"] := by
  unfold Location.Nameable
  decide

namespace Stands

theorem directory (h : s.Stands t l) : t.get? l = some .directory :=
  FileTree.get?_above h.manifest (List.cons_ne_nil _ _)

theorem follow_trunk (h : s.Stands t l) : t.follow s.dir.absolute s.dir.trunk = .ok l :=
  (FileTree.foldlM_trunk_iff h.directory).mpr h.dir

theorem foldlM_entry (h : s.Stands t l) :
    ["src", "main.mal"].foldlM t.step l = .ok (l ++ ["src", "main.mal"]) :=
  FileTree.follow_names h.source nameable_entry.proper fun r hr => (nameable_entry r hr).2.1

theorem locate_manifest (h : s.Stands t l) (whole : s.manifestPath.checkWhole = .ok ()) :
    t.locate s.manifestPath = .ok (l ++ ["mal.toml"]) := by
  have names : Location.Proper ["mal.toml"] := by
    unfold Location.Proper
    decide
  have last := FileTree.follow_names h.manifest names (by decide)
  refine FileTree.locate_eq_ok_iff.mpr ⟨whole, ?_⟩
  rw [manifestPath_eq]
  exact (FileTree.foldlM_append h.follow_trunk).trans last

theorem isDirectory (h : s.Stands t l) (named : s.dir ≠ .empty)
    (whole : s.manifestPath.checkWhole = .ok ()) : t.isDirectory s.dir = true := by
  have relative : Manifest.fileName.absolute = false ∧ Manifest.fileName.segments ≠ [] := by
    decide
  have whole := Path.checkWhole_of_join relative.1 relative.2 named whole
  have located : t.locate s.dir = .ok l := FileTree.locate_eq_ok_iff.mpr ⟨whole, h.dir⟩
  rw [FileTree.isDirectory, FileTree.entry?, located]
  exact decide_eq_true h.directory

theorem find?_manifest (h : s.Stands t l) (whole : s.manifestPath.checkWhole = .ok ()) :
    Manifest.find? t s.dir = some s.manifestPath := by
  apply Manifest.find?_of_contains
  apply FileTree.contains_iff.mpr
  exact ⟨_, h.locate_manifest whole, Option.isSome_iff_exists.mpr ⟨_, h.manifest⟩⟩

theorem load_manifest (h : s.Stands t l) (whole : s.manifestPath.checkWhole = .ok ())
    (toml : Manifest.parse? s.manifest.text = some s.manifest) :
    Manifest.load t s.manifestPath = .ok s.manifest := by
  have read : t.read s.manifestPath = .ok s.manifest.text :=
    FileTree.read_eq_ok_iff.mpr ⟨_, h.locate_manifest whole, h.manifest⟩
  rw [Manifest.load, read]
  dsimp only
  rw [toml]

end Stands

theorem noZero_trunk (whole : s.manifestPath.checkWhole = .ok ()) :
    ∀ r ∈ s.dir.trunk, '\x00' ∉ r.toList := by
  rw [manifestPath_eq] at whole
  exact fun r hr => (FileTree.checkWhole_eq_ok_iff.mp whole).1 r (List.mem_append_left _ hr)

/-- The directory of the manifest, as its path gives it. -/
def root (s : Scaffold) : Path := Project.rootOf s.manifestPath

theorem root_eq (s : Scaffold) :
    s.root = ⟨s.dir.absolute, Path.trimEnd s.dir.absolute s.dir.trunk⟩ := by
  rw [root, Project.rootOf, manifestPath_eq, Path.parent?_concat (by decide)]
  rfl

namespace Stands

/-- The path to the manifest leads to the directory of the project. -/
theorem follow_root (h : s.Stands t l) : t.follow s.root.absolute s.root.segments = .ok l := by
  rw [root_eq]
  obtain ⟨gaps, whole, gap⟩ := Path.exists_gaps_of_trimEnd s.dir.absolute s.dir.trunk
  have trunk := h.follow_trunk
  rw [whole] at trunk
  exact FileTree.foldlM_of_gaps gap trunk

theorem canonical_entry (h : s.Stands t l) (whole : s.manifestPath.checkWhole = .ok ()) :
    t.canonical (s.root.join s.manifest.entryPath) =
      .ok (.ofLocation (l ++ ["src", "main.mal"])) := by
  have below : s.manifest.entryPath.segments.foldlM t.step l = .ok (l ++ ["src", "main.mal"]) := by
    rw [entryPath_manifest]
    exact h.foldlM_entry
  have relative : s.manifest.entryPath.absolute = false := by rw [entryPath_manifest]
  have some : s.manifest.entryPath.segments ≠ [] := by
    rw [entryPath_manifest]
    exact List.cons_ne_nil _ _
  have found := (FileTree.follow_join relative some h.directory h.follow_root).trans below
  refine FileTree.canonical_of_follow (Path.checkName_eq_ok_iff.mpr ⟨fun r hr => ?_, ?_⟩) found
  · rw [Path.join_of_relative relative some, entryPath_manifest] at hr
    rcases List.mem_append.mp hr with hr | hr
    · have inside := Path.mem_of_mem_trunk hr
      rw [root_eq] at inside
      exact noZero_trunk whole r (Path.mem_of_mem_trimEnd inside)
    · exact (nameable_entry r hr).2.2
  · rw [Path.join_of_relative relative some]
    intro none
    exact some (List.append_eq_nil_iff.mp (congrArg Path.segments none)).2

/-- The location of the project can be named. -/
theorem nameable (h : s.Stands t l) (whole : s.manifestPath.checkWhole = .ok ())
    (here : t.here.Nameable) : l.Nameable := by
  refine FileTree.nameable_of_follow ?_ (noZero_trunk whole) h.follow_trunk
  split
  · exact .nil
  · exact here

theorem read_entry (h : s.Stands t l) (names : l.Nameable)
    (short : (Path.ofLocation (l ++ ["src", "main.mal"])).text.utf8ByteSize ≤ Path.lengthLimit) :
    t.read (.ofLocation (l ++ ["src", "main.mal"])) = .ok s.source :=
  FileTree.read_eq_ok_iff.mpr
    ⟨_, FileTree.locate_ofLocation (names.append nameable_entry) h.source short, h.source⟩

/-- The project is the one that the manifest describes, with the example as its only file. -/
theorem ofPath_eq (h : s.Stands t l) (whole : s.manifestPath.checkWhole = .ok ())
    (named : s.dir ≠ .empty) (here : t.here.Nameable)
    (toml : Manifest.parse? s.manifest.text = some s.manifest)
    (short : (Path.ofLocation (l ++ ["src", "main.mal"])).text.utf8ByteSize ≤ Path.lengthLimit) :
    Project.ofPath t s.dir =
      (let entry := Path.ofLocation (l ++ ["src", "main.mal"])
      match Spec.ofSource s.source with
      | .error e => .error (.unparsable entry e)
      | .ok spec =>
          match spec.analyzeAt (t.loader []) entry with
          | .error e => .error (.inclusion e)
          | .ok r =>
              .ok ⟨s.manifest, s.root, entry, (entry, s.source) :: r.sources, r.analysis⟩) := by
  have includes : s.manifest.source.includeDirs = [] := rfl
  rw [Project.ofPath, if_pos (h.isDirectory named whole), h.find?_manifest whole]
  dsimp only
  rw [Project.ofManifest, h.load_manifest whole toml]
  dsimp only
  rw [includes, Project.load]
  have entry := h.canonical_entry whole
  rw [root] at entry
  rw [entry]
  dsimp only
  rw [h.read_entry (h.nameable whole here) short]
  rfl

end Stands

/-- Where the entry of a project stands. -/
theorem Stands.place_entry (h : s.Stands t l) :
    s.entryPath.place t.here = l ++ ["src", "main.mal"] := by
  have followed := (FileTree.foldlM_append h.follow_trunk).trans h.foldlM_entry
  rw [Path.place_eq_foldl, entryPath_eq]
  exact (FileTree.follow_eq followed).symm

theorem build_of_init (made : (Command.run t (.init s.name s.dir)).result = .ok ()) :
    s.build t = ((Command.run t (.init s.name s.dir)).tree, .ok ()) := by
  obtain ⟨tree, result⟩ := Command.run_init s t
  rw [tree, ← made, result]

theorem analyzeAt_spec (s : Scaffold) (l : Loader) (p : Path) :
    s.spec.analyzeAt l p = .ok ⟨[], s.analysis⟩ := by
  rw [Spec.analyzeAt_eq]
  have walked : walk l [p] (s.spec.items.map fun item => (p.directory, item)) =
      ⟨s.spec.declarations, [p], [], none⟩ :=
    walk_declarations l [p] p.directory s.spec.declarations
  rw [walked]
  dsimp only
  rw [Declared.foldl_declare]
  rfl

/-- What a check of a new project loads is decided by the example alone. -/
theorem ofPath_of_init (made : (Command.run t (.init s.name s.dir)).result = .ok ())
    (named : s.dir ≠ .empty) (here : t.here.Nameable)
    (short : (Path.ofLocation (s.entryPath.place t.here)).text.utf8ByteSize ≤ Path.lengthLimit)
    (toml : Manifest.parse? s.manifest.text = some s.manifest) :
    let t' := (Command.run t (.init s.name s.dir)).tree
    let entry := Path.ofLocation (s.entryPath.place t.here)
    Project.ofPath t' s.dir =
      match Spec.ofSource s.source with
      | .error e => .error (.unparsable entry e)
      | .ok spec =>
          match spec.analyzeAt (t'.loader []) entry with
          | .error e => .error (.inclusion e)
          | .ok r =>
              .ok ⟨s.manifest, s.root, entry, (entry, s.source) :: r.sources, r.analysis⟩ := by
  obtain ⟨l, stands, same, whole⟩ := exists_stands_of_build (build_of_init made)
  rw [← same] at here short ⊢
  rw [stands.place_entry] at short ⊢
  exact stands.ofPath_eq whole named here toml short

/-- A new project passes a check, even where warnings are denied, whatever its name and its
directory are, as long as the quotes and backslashes of the name are escaped in it. The example is
the only file of the project, defines the identifier that the name stands for and the version, and
has neither an error nor a warning. -/
theorem check_of_init (made : (Command.run t (.init s.name s.dir)).result = .ok ())
    (named : s.dir ≠ .empty) (here : t.here.Nameable)
    (short : (Path.ofLocation (s.entryPath.place t.here)).text.utf8ByteSize ≤ Path.lengthLimit)
    (toml : Manifest.parse? s.manifest.text = some s.manifest)
    (units : Literal.Escaped s.name.toList) :
    let t' := (Command.run t (.init s.name s.dir)).tree
    (∀ denyWarnings, (Command.run t' (.check s.dir denyWarnings)).result = .ok ()) ∧
      ∃ project, Project.ofPath t' s.dir = .ok project ∧ project.manifest = s.manifest ∧
        project.sources = [(project.entry, s.source)] ∧
        project.analysis.errors = [] ∧ project.analysis.warnings = [] ∧
        project.analysis.registry.defines.entries.map (fun d => (d.key, d.value)) =
          [("id", s.specId), ("version", "0.1.0")] := by
  intro t'
  have loaded := ofPath_of_init made named here short toml
  rw [ofSource_source units] at loaded
  dsimp only at loaded
  rw [analyzeAt_spec] at loaded
  refine ⟨fun denyWarnings => ?_, _, loaded, rfl, rfl, s.errors_analysis, s.warnings_analysis,
    s.defines_analysis⟩
  rw [Command.result_check loaded]
  exact Project.verdict_of_nil s.errors_analysis s.warnings_analysis

/-! ### Projects in the working directory -/

def inside (name : String) : Scaffold := ⟨name, .ofText "."⟩

theorem entryPath_inside (name : String) :
    (inside name).entryPath = ⟨false, [".", "src", "main.mal"]⟩ := by
  have dir : Path.ofText "." = ⟨false, ["."]⟩ := by decide
  rw [entryPath_eq, inside, dir]
  rfl

theorem init_inside (name : String) :
    (Command.run .empty (.init (inside name).name (inside name).dir)).result = .ok () := by
  have located : FileTree.empty.locate (.ofText ".") = .ok [] :=
    FileTree.locate_eq_ok_iff.mpr ⟨FileTree.checkWhole_eq_ok_iff.mpr (by decide), by
      decide⟩
  have empty : FileTree.empty.isEmptyDirectory (.ofText ".") = true := by
    rw [FileTree.isEmptyDirectory, located]
    decide
  have whole : (inside name).entryPath.checkWhole = .ok () := by
    rw [entryPath_inside]
    exact FileTree.checkWhole_eq_ok_iff.mpr (by decide)
  obtain ⟨t', built⟩ := exists_build located empty whole
  rw [(Command.run_init (inside name) .empty).2, built]

theorem short_inside (name : String) :
    (Path.ofLocation ((inside name).entryPath.place [])).text.utf8ByteSize ≤ Path.lengthLimit := by
  rw [entryPath_inside]
  decide

theorem named_inside (name : String) : (inside name).dir ≠ .empty := by
  change Path.ofText "." ≠ .empty
  decide

theorem check_of_init_escaped :
    (Command.run .empty (.init "Demo \\\"lan\\\"" (.ofText "."))).result = .ok () ∧
      (Command.run (Command.run .empty (.init "Demo \\\"lan\\\"" (.ofText "."))).tree
        (.check (.ofText ".") true)).result = .ok () := by
  have made := init_inside "Demo \\\"lan\\\""
  have toml : Manifest.parse? (Manifest.ofName "Demo \\\"lan\\\"").text =
      some (.ofName "Demo \\\"lan\\\"") := by decide +kernel
  have escape : Literal.escape "Demo \"lan\"".toList = "Demo \\\"lan\\\"".toList := by
    decide
  have units : Literal.Escaped "Demo \\\"lan\\\"".toList := escape ▸ Literal.escaped_escape _
  exact ⟨made, (check_of_init made (named_inside _) .nil (short_inside _) toml units).1 true⟩

/-- A quote in the name that is not escaped ends the identifier, and what is behind it cannot be
read. -/
theorem check_of_init_quote :
    (Command.run .empty (.init "a\"b" (.ofText "."))).result = .ok () ∧
      (Command.run (Command.run .empty (.init "a\"b" (.ofText "."))).tree
        (.check (.ofText ".") true)).result =
        .error (.load (.unparsable (.ofLocation ["src", "main.mal"])
          (.invalidToken ⟨39, 271, 2⟩))) := by
  have made := init_inside "a\"b"
  have toml : Manifest.parse? (Manifest.ofName "a\"b").text = some (.ofName "a\"b") := by
    decide +kernel
  have refused : Spec.ofSource (inside "a\"b").source = .error (.invalidToken ⟨39, 271, 2⟩) := by
    rw [Spec.ofSource, lexemes, scan, source, toList_join_lines]
    decide +kernel
  have place : (inside "a\"b").entryPath.place FileTree.empty.here = ["src", "main.mal"] := by
    rw [entryPath_inside]
    decide
  have loaded := ofPath_of_init made (named_inside _) .nil (short_inside _) toml
  rw [refused, place] at loaded
  exact ⟨made, Command.result_check_of_error loaded⟩

end Scaffold

end MetaAttack
