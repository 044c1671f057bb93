import Mathlib.Data.List.Infix
import MetaAttack.Project.Load
import MetaAttack.Proofs.Writing

/-!
# Searching for a manifest

The search for a manifest takes one component after the other off the end of a path, down to where
the path starts. So the places that it looks at are those that the beginnings of the path lead to,
the longest beginning first, and it stops at the first of them that holds a manifest. Where no
component is a `..` these are the directory itself and those above it, as far as the start of the
path: the root, or the working directory where the path is relative.

From an absolute path without `..` the search thus finds the nearest manifest at or above the
directory. From a relative path it sees nothing above the working directory, and where a `..` is
taken off it goes down again.
-/

namespace MetaAttack

open MetaAttack.Path (Component)

variable {t : FileTree} {p q : Path} {l here : Location} {x : Option Path}

/-- The directory to which the names lead from `top`, and those above it as far as `top`, the
nearest first. -/
def Location.upward (top : Location) (names : List String) : List Location :=
  (names.inits.map (top ++ ·)).reverse

namespace Path

/-- What the segments of a path say, without those that count for nothing. -/
def steps (p : Path) : List Component := p.segments.filterMap Component.ofSegment?

/-- Where a path starts, as seen from a working directory. -/
def start (p : Path) (here : Location) : Location := if p.absolute then [] else here

/-- The places that the beginnings of a path lead to, from the whole path down to its start. -/
def stations (p : Path) (here : Location) : List Location :=
  (p.steps.inits.map (List.foldl enter (p.start here))).reverse

theorem place_eq_steps (p : Path) (here : Location) :
    p.place here = p.steps.foldl enter (p.start here) :=
  p.place_eq_foldl here

/-! ### The beginnings of a path -/

theorem stations_of_nil (h : p.steps = []) : p.stations here = [p.place here] := by
  simp [stations, place_eq_steps, h]

theorem stations_congr (start : p.absolute = q.absolute) (steps : p.steps = q.steps) :
    p.stations here = q.stations here := by
  simp only [stations, Path.start, start, steps]

theorem stations_concat {c : Component} (start : p.absolute = q.absolute)
    (steps : p.steps = q.steps ++ [c]) :
    p.stations here = p.place here :: q.stations here := by
  simp [stations, place_eq_steps, Path.start, start, steps]

theorem exists_stations (p : Path) (here : Location) :
    ∃ further, p.stations here = p.place here :: further := by
  rcases List.eq_nil_or_concat p.steps with none | ⟨front, c, last⟩
  · exact ⟨[], stations_of_nil none⟩
  · simp [stations, place_eq_steps, last]

theorem foldl_enter_names (top : Location) (names : List String) :
    (names.map Component.name).foldl enter top = top ++ names := by
  induction names generalizing top with
  | nil => simp
  | cons s names ih => simp [ih, enter]

/-- A path without `..` only descends. -/
theorem exists_names_of_level (level : ".." ∉ p.segments) :
    ∃ names : List String, p.steps = names.map Component.name := by
  unfold steps
  generalize p.segments = ss at level
  induction ss with
  | nil => exact ⟨[], rfl⟩
  | cons s ss ih =>
      rw [List.mem_cons, not_or] at level
      obtain ⟨names, hnames⟩ := ih level.2
      by_cases gap : s = "" ∨ s = "."
      · exact ⟨names, by simp [Component.ofSegment?, gap, hnames]⟩
      · exact ⟨s :: names, by simp [Component.ofSegment?, gap, Ne.symm level.1, hnames]⟩

/-- The beginnings of a path without `..` lead to the directory and to those above it. -/
theorem stations_of_level (level : ".." ∉ p.segments) (here : Location) :
    ∃ names, p.place here = p.start here ++ names ∧
      p.stations here = Location.upward (p.start here) names := by
  obtain ⟨names, hnames⟩ := exists_names_of_level level
  refine ⟨names, ?_, ?_⟩
  · rw [place_eq_steps, hnames, foldl_enter_names]
  · simp only [stations, Location.upward, hnames, List.map_inits, List.map_map]
    refine congrArg List.reverse (List.map_congr_left fun front _ => ?_)
    exact foldl_enter_names (p.start here) front

/-! ### Parents -/

/-- The parent of a path is what stands in front of one segment and of others that count for
nothing. -/
theorem exists_of_parent? (h : p.parent? = some q) :
    q.absolute = p.absolute ∧ ∃ gaps s gaps', p.segments = q.segments ++ (gaps ++ s :: gaps') ∧
      (∀ g ∈ gaps, g = "" ∨ g = ".") ∧ ∀ g ∈ gaps', g = "" ∨ g = "." := by
  unfold parent? at h
  obtain ⟨gaps', whole, hgaps'⟩ := exists_gaps_of_trimEnd p.absolute p.segments
  split at h
  · cases h
  · next r rs trimmed =>
    cases h
    obtain ⟨gaps, front, hgaps⟩ := exists_gaps_of_trimEnd p.absolute (r :: rs).dropLast
    refine ⟨rfl, gaps, (r :: rs).getLast (List.cons_ne_nil r rs), gaps', ?_, hgaps, hgaps'⟩
    calc p.segments
      _ = (r :: rs).dropLast ++ [(r :: rs).getLast (List.cons_ne_nil r rs)] ++ gaps' := by
        rw [List.dropLast_concat_getLast, ← trimmed, ← whole]
      _ = _ := by
        conv_lhs => rw [front]
        simp

/-- To the parent of a path one component is taken off, or none where only gaps are left. -/
theorem steps_of_parent? (h : p.parent? = some q) :
    p.steps = q.steps ∨ ∃ c, p.steps = q.steps ++ [c] := by
  obtain ⟨-, gaps, s, gaps', whole, before, behind⟩ := exists_of_parent? h
  simp only [steps, whole, List.filterMap_append, List.filterMap_cons,
    filterMap_ofSegment?_of_gaps before, filterMap_ofSegment?_of_gaps behind]
  cases Component.ofSegment? s with
  | none => simp
  | some c => exact .inr ⟨c, by simp⟩

theorem steps_of_parent?_eq_none (h : p.parent? = none) : p.steps = [] := by
  obtain ⟨gaps, whole, hgaps⟩ := exists_gaps_of_trimEnd p.absolute p.segments
  unfold parent? at h
  split at h
  · next trimmed =>
    rw [trimmed, List.nil_append] at whole
    rw [steps, whole, filterMap_ofSegment?_of_gaps hgaps]
  · cases h

theorem stations_of_parent? (h : p.parent? = some q) :
    p.stations here = q.stations here ∨ p.stations here = p.place here :: q.stations here := by
  have start := (exists_of_parent? h).1.symm
  rcases steps_of_parent? h with same | ⟨c, off⟩
  · exact .inl (stations_congr start same)
  · exact .inr (stations_concat start off)

/-! ### The manifest in a directory -/

theorem join_fileName (p : Path) :
    p.join Manifest.fileName = ⟨p.absolute, p.trunk ++ ["mal.toml"]⟩ := by
  have name : Manifest.fileName = ⟨false, ["mal.toml"]⟩ := by decide
  rw [name, join_of_relative rfl (List.cons_ne_nil _ _)]

/-- A path in a directory can be looked up if it is short enough. -/
theorem checkWhole_join_fileName (whole : p.checkWhole = .ok ())
    (short : (p.join Manifest.fileName).isTooLong = false) :
    (p.join Manifest.fileName).checkWhole = .ok () := by
  obtain ⟨zero, -, -⟩ := FileTree.checkWhole_eq_ok_iff.mp whole
  refine FileTree.checkWhole_eq_ok_iff.mpr ⟨?_, ?_, ?_⟩
  · rw [join_fileName]
    exact List.forall_mem_append.mpr ⟨fun s hs => zero s (mem_of_mem_trunk hs), by decide⟩
  · simp [join_fileName, empty]
  · simpa [isTooLong] using short

/-- A path that can be looked up still can if segments are left out. -/
theorem checkWhole_of_leave_out {absolute : Bool} {front between rest : List String}
    (below : rest ≠ []) (h : checkWhole ⟨absolute, front ++ (between ++ rest)⟩ = .ok ()) :
    checkWhole ⟨absolute, front ++ rest⟩ = .ok () := by
  have size := List.length_pos_of_ne_nil below
  rw [FileTree.checkWhole_eq_ok_iff, utf8ByteSize_text] at h ⊢
  obtain ⟨zero, -, short⟩ := h
  refine ⟨fun s hs => zero s ?_, fun none => ?_, ?_⟩
  · simp only [List.mem_append] at hs ⊢
    tauto
  · simp [empty, below] at none
  · simp only [List.map_append, List.sum_append, List.length_append] at short ⊢
    omega

theorem trunk_prefix_of_parent? (h : p.parent? = some q) : q.trunk <+: p.trunk := by
  obtain ⟨-, gaps, s, gaps', whole, -, -⟩ := exists_of_parent? h
  have shorter : q.trunk <+: q.segments := by
    unfold trunk
    split
    · exact List.dropLast_prefix _
    · exact List.prefix_rfl
  apply shorter.trans
  unfold trunk
  split
  · rw [whole, List.dropLast_append_of_ne_nil (by simp)]
    exact List.prefix_append ..
  · rw [whole]
    exact List.prefix_append ..

/-- If the manifest in a directory can be looked up, then so can the one in its parent. -/
theorem checkWhole_of_parent? (h : p.parent? = some q)
    (whole : (p.join Manifest.fileName).checkWhole = .ok ()) :
    (q.join Manifest.fileName).checkWhole = .ok () := by
  obtain ⟨off, hoff⟩ := trunk_prefix_of_parent? h
  rw [join_fileName, ← hoff, List.append_assoc] at whole
  rw [join_fileName, (exists_of_parent? h).1]
  exact checkWhole_of_leave_out (List.cons_ne_nil _ _) whole

end Path

namespace FileTree

/-- In the directory at the location stands a manifest. -/
def HoldsManifest (t : FileTree) (l : Location) : Prop := (t.get? (l ++ ["mal.toml"])).isSome

instance (t : FileTree) (l : Location) : Decidable (t.HoldsManifest l) :=
  inferInstanceAs (Decidable ((t.get? (l ++ ["mal.toml"])).isSome = true))

theorem contains_iff : t.contains p = true ↔ ∃ l, t.locate p = .ok l ∧ (t.get? l).isSome := by
  unfold contains entry?
  cases t.locate p <;> simp

/-- Following the path leads to a directory. -/
structure Enters (t : FileTree) (p : Path) : Prop where
  followed : t.follow p.absolute p.segments = .ok (p.place t.here)
  directory : t.get? (p.place t.here) = some .directory

theorem isDirectory_iff : t.isDirectory p = true ↔ p.checkWhole = .ok () ∧ t.Enters p := by
  constructor
  · intro h
    cases located : t.locate p with
    | error e => simp [isDirectory, entry?, located] at h
    | ok l =>
        obtain rfl := locate_eq located
        obtain ⟨whole, followed⟩ := locate_eq_ok_iff.mp located
        exact ⟨whole, followed, by simpa [isDirectory, entry?, located] using h⟩
  · rintro ⟨whole, followed, directory⟩
    simp [isDirectory, entry?, locate_eq_ok_iff.mpr ⟨whole, followed⟩, directory]

namespace Enters

theorem locate_manifest_iff (h : t.Enters p) :
    t.locate (p.join Manifest.fileName) = .ok l ↔
      (p.join Manifest.fileName).checkWhole = .ok () ∧ t.HoldsManifest (p.place t.here) ∧
        l = p.place t.here ++ ["mal.toml"] := by
  have relative : Manifest.fileName.absolute = false := by decide
  have name : Manifest.fileName.segments = ["mal.toml"] := by decide
  have step : t.step (p.place t.here) "mal.toml" =
      if (t.get? (p.place t.here ++ ["mal.toml"])).isSome then .ok (p.place t.here ++ ["mal.toml"])
      else .error .notFound := by
    have short : ¬ "mal.toml".utf8ByteSize > nameLimit := by decide
    rw [FileTree.step, h.directory]
    simp only [short, if_false]
    simp
  rw [locate_eq_ok_iff, follow_join relative (by simp [name]) h.directory h.followed, name,
    List.foldlM_cons, step]
  refine and_congr_right fun _ => ?_
  unfold HoldsManifest
  split
  · next there => simp [there, bind, Except.bind, pure, Except.pure, eq_comm]
  · next missing => simp [missing, bind, Except.bind]

theorem contains_manifest_iff (h : t.Enters p) :
    t.contains (p.join Manifest.fileName) = true ↔
      (p.join Manifest.fileName).checkWhole = .ok () ∧ t.HoldsManifest (p.place t.here) := by
  rw [contains_iff]
  constructor
  · rintro ⟨l, located, -⟩
    obtain ⟨whole, holds, -⟩ := h.locate_manifest_iff.mp located
    exact ⟨whole, holds⟩
  · rintro ⟨whole, holds⟩
    exact ⟨_, h.locate_manifest_iff.mpr ⟨whole, holds, rfl⟩, holds⟩

theorem locate_of_contains (h : t.Enters p) (there : t.contains (p.join Manifest.fileName) = true) :
    t.locate (p.join Manifest.fileName) = .ok (p.place t.here ++ ["mal.toml"]) := by
  obtain ⟨whole, holds⟩ := h.contains_manifest_iff.mp there
  exact h.locate_manifest_iff.mpr ⟨whole, holds, rfl⟩

/-- The parent of a path leads to a directory as well. -/
theorem parent? (h : t.Enters p) (parent : p.parent? = some q) : t.Enters q := by
  obtain ⟨start, gaps, s, gaps', whole, -, -⟩ := Path.exists_of_parent? parent
  have followed := h.followed
  rw [whole] at followed
  obtain ⟨k, front, last⟩ := exists_of_foldlM_append followed
  rw [← start] at front
  obtain rfl : k = q.place t.here := by
    rw [Path.place_eq_foldl]
    exact follow_eq front
  obtain ⟨r, rs, further⟩ := List.exists_cons_of_ne_nil (l := gaps ++ s :: gaps') (by simp)
  rw [further] at last
  obtain ⟨m, made, -⟩ := exists_of_foldlM_cons last
  exact ⟨front, get?_of_step made⟩

end Enters

end FileTree

namespace Manifest

/-! ### The first manifest on a way -/

/-- The answer is the manifest in the first of the places that holds one; there is no answer where
none of them does. -/
structure FirstOn (t : FileTree) (places : List Location) (x : Option Path) : Prop where
  found : ∀ q, x = some q → ∃ before l after, places = before ++ l :: after ∧
    (∀ m ∈ before, ¬ t.HoldsManifest m) ∧ t.locate q = .ok (l ++ ["mal.toml"])
  missing : x = none ↔ ∀ l ∈ places, ¬ t.HoldsManifest l

namespace FirstOn

variable {places : List Location}

theorem nil : FirstOn t [] none := ⟨nofun, by simp⟩

theorem first (holds : t.HoldsManifest l) (located : t.locate q = .ok (l ++ ["mal.toml"])) :
    FirstOn t (l :: places) (some q) where
  found := by
    rintro _ ⟨⟩
    exact ⟨[], l, places, rfl, List.forall_mem_nil _, located⟩
  missing := by
    refine iff_of_false nofun fun none => ?_
    exact none l List.mem_cons_self holds

theorem later (h : FirstOn t places x) (missing : ¬ t.HoldsManifest l) :
    FirstOn t (l :: places) x where
  found := by
    intro q hq
    obtain ⟨before, m, after, rfl, none, located⟩ := h.found q hq
    exact ⟨l :: before, m, after, rfl, List.forall_mem_cons.mpr ⟨missing, none⟩, located⟩
  missing := by
    rw [h.missing, List.forall_mem_cons, and_iff_right missing]

end FirstOn

/-! ### The search, step by step -/

theorem find?_of_contains (there : t.contains (p.join fileName) = true) :
    find? t p = some (p.join fileName) := by
  rw [find?]
  exact if_pos there

theorem find?_of_top (missing : ¬ t.contains (p.join fileName) = true) (top : p.parent? = none) :
    find? t p = none := by
  rw [find?]
  dsimp only
  rw [if_neg missing]
  split
  · rfl
  · next parent => simp [top] at parent

theorem find?_of_parent? (missing : ¬ t.contains (p.join fileName) = true)
    (parent : p.parent? = some q) : find? t p = find? t q := by
  conv_lhs => rw [find?]
  dsimp only
  rw [if_neg missing]
  split
  · next top => simp [top] at parent
  · next q' parent' =>
    obtain rfl : q' = q := by simpa [parent'] using parent
    rfl

/-- What is found stands in a place that a beginning of the path leads to. -/
theorem exists_station_of_find? (enters : t.Enters p) (h : find? t p = some q) :
    ∃ l ∈ p.stations t.here, t.locate q = .ok (l ++ ["mal.toml"]) := by
  induction p using find?.induct t with
  | case1 p name there =>
      rw [find?_of_contains there] at h
      cases h
      obtain ⟨further, stations⟩ := p.exists_stations t.here
      exact ⟨p.place t.here, stations ▸ List.mem_cons_self, enters.locate_of_contains there⟩
  | case2 p name missing top =>
      rw [find?_of_top missing top] at h
      cases h
  | case3 p name missing parent above shorter ih =>
      rw [find?_of_parent? missing above] at h
      obtain ⟨l, hl, located⟩ := ih (enters.parent? above) h
      refine ⟨l, ?_, located⟩
      rcases Path.stations_of_parent? above with same | more
      · rwa [same]
      · rw [more]
        exact List.mem_cons_of_mem _ hl

theorem firstOn_stations (enters : t.Enters p) (whole : (p.join fileName).checkWhole = .ok ()) :
    FirstOn t (p.stations t.here) (find? t p) := by
  induction p using find?.induct t with
  | case1 p name there =>
      obtain ⟨further, stations⟩ := p.exists_stations t.here
      rw [find?_of_contains there, stations]
      exact .first (enters.contains_manifest_iff.mp there).2 (enters.locate_of_contains there)
  | case2 p name missing top =>
      have none : ¬ t.HoldsManifest (p.place t.here) := fun holds =>
        missing (enters.contains_manifest_iff.mpr ⟨whole, holds⟩)
      rw [find?_of_top missing top, Path.stations_of_nil (Path.steps_of_parent?_eq_none top)]
      exact FirstOn.nil.later none
  | case3 p name missing parent above shorter ih =>
      have none : ¬ t.HoldsManifest (p.place t.here) := fun holds =>
        missing (enters.contains_manifest_iff.mpr ⟨whole, holds⟩)
      have rest := ih (enters.parent? above) (Path.checkWhole_of_parent? above whole)
      rw [find?_of_parent? missing above]
      rcases Path.stations_of_parent? above with same | more
      · rwa [same]
      · rw [more]
        exact rest.later none

/-- A search for a manifest follows the text of the path of a directory. What it finds stands where
a beginning of the path leads. Where the name of the manifest in the directory is not too long, it
is the first manifest on the way from the directory over these places, and nothing is found only
where there is none on it. For a path without `..` the way goes up from the directory to the start
of the path, for an absolute one to the root. -/
theorem find?_climbs (dir : t.isDirectory p = true) :
    (∀ q, find? t p = some q → ∃ l ∈ p.stations t.here, t.locate q = .ok (l ++ ["mal.toml"])) ∧
    ((p.join fileName).isTooLong = false → FirstOn t (p.stations t.here) (find? t p)) ∧
    (".." ∉ p.segments → ∃ names, p.place t.here = p.start t.here ++ names ∧
      p.stations t.here = Location.upward (p.start t.here) names) ∧
    (".." ∉ p.segments → p.absolute = true →
      p.stations t.here = Location.upward [] (p.place t.here)) := by
  obtain ⟨whole, enters⟩ := FileTree.isDirectory_iff.mp dir
  refine ⟨fun q => exists_station_of_find? enters, fun short => ?first,
    fun level => Path.stations_of_level level t.here, fun level absolute => ?root⟩
  case first =>
    exact firstOn_stations enters (Path.checkWhole_join_fileName whole short)
  case root =>
    obtain ⟨names, place, stations⟩ := Path.stations_of_level level t.here
    have start : p.start t.here = [] := if_pos absolute
    rw [stations, place, start, List.nil_append]

/-! ### Three directories -/

/-- A manifest in the middle one of three directories, one in the other. -/
def nested (here : Location) : FileTree where
  entries := [(["a"], .directory), (["a", "b"], .directory), (["a", "b", "c"], .directory),
    (["a", "b", "mal.toml"], .file (some ""))]
  here := here
  nodup := by decide
  parent_mem := by decide

theorem isDirectory_nested (whole : p.checkWhole = .ok ())
    (followed : (nested here).follow p.absolute p.segments = .ok (p.place here))
    (directory : (nested here).get? (p.place here) = some .directory) :
    (nested here).isDirectory p = true :=
  FileTree.isDirectory_iff.mpr ⟨whole, followed, directory⟩

theorem find?_climbs_nested :
    (nested []).isDirectory (.ofText "/a/./b/c/") = true ∧
      FirstOn (nested []) [["a", "b", "c"], ["a", "b"], ["a"], []]
        (find? (nested []) (.ofText "/a/./b/c/")) ∧
      find? (nested []) (.ofText "/a/./b/c/") ≠ none := by
  have dir : (nested []).isDirectory (.ofText "/a/./b/c/") = true :=
    isDirectory_nested (FileTree.checkWhole_eq_ok_iff.mpr (by decide)) (by decide) (by decide)
  have first := (find?_climbs dir).2.1 (by decide)
  rw [(find?_climbs dir).2.2.2 (by decide) (by decide)] at first
  have above : Location.upward [] ((Path.ofText "/a/./b/c/").place (nested []).here) =
      [["a", "b", "c"], ["a", "b"], ["a"], []] := by decide
  rw [above] at first
  refine ⟨dir, first, fun none => ?_⟩
  exact first.missing.mp none ["a", "b"] (by decide) (by decide)

/-- From the working directory `a/b/c` under the name `.`, the manifest in `a/b` is not found. From
the directory `a` under the name `a/b/..` it is found, though it stands below. -/
theorem not_firstOn_upward :
    ((nested ["a", "b", "c"]).isDirectory (.ofText ".") = true ∧
      find? (nested ["a", "b", "c"]) (.ofText ".") = none ∧
      ¬ FirstOn (nested ["a", "b", "c"])
        (Location.upward [] ((Path.ofText ".").place ["a", "b", "c"]))
        (find? (nested ["a", "b", "c"]) (.ofText "."))) ∧
    (nested []).isDirectory (.ofText "a/b/..") = true ∧
      find? (nested []) (.ofText "a/b/..") ≠ none ∧
      ¬ FirstOn (nested []) (Location.upward [] ((Path.ofText "a/b/..").place []))
        (find? (nested []) (.ofText "a/b/..")) := by
  have wholeHere : (Path.ofText ".").checkWhole = .ok () :=
    FileTree.checkWhole_eq_ok_iff.mpr (by decide)
  have wholeUp : (Path.ofText "a/b/..").checkWhole = .ok () :=
    FileTree.checkWhole_eq_ok_iff.mpr (by decide)
  have dirHere : (nested ["a", "b", "c"]).isDirectory (.ofText ".") = true :=
    isDirectory_nested wholeHere (by decide) (by decide)
  have dirUp : (nested []).isDirectory (.ofText "a/b/..") = true :=
    isDirectory_nested wholeUp (by decide) (by decide)
  have firstHere := firstOn_stations (FileTree.isDirectory_iff.mp dirHere).2
    (Path.checkWhole_join_fileName wholeHere (by decide))
  have firstUp := firstOn_stations (FileTree.isDirectory_iff.mp dirUp).2
    (Path.checkWhole_join_fileName wholeUp (by decide))
  have noneHere := firstHere.missing.mpr (by decide)
  have someUp : find? (nested []) (.ofText "a/b/..") ≠ none := fun none =>
    firstUp.missing.mp none ["a", "b"] (by decide) (by decide)
  refine ⟨⟨dirHere, noneHere, fun nearest => ?_⟩, dirUp, someUp, fun nearest => ?_⟩
  · exact nearest.missing.mp noneHere ["a", "b"] (by decide) (by decide)
  · exact someUp (nearest.missing.mpr (by decide))

end Manifest

end MetaAttack
