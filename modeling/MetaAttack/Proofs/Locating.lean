import MetaAttack.Files.Tree.Loader
import MetaAttack.Proofs.Location

/-!
# Following paths in a tree

A tree holds no links, so where a path leads can be seen from its text: if following it comes to
an end, the end is the place that its components name. What a tree tells besides is only that
something is there. The path from the root to that place is normal, and normalizing any path that
does not climb above the root gives it.
-/

namespace MetaAttack

open MetaAttack.Path (Component)

variable {p q : Path} {l m : Location} {s : String} {t : FileTree}

/-- No name in the location stands for another place. -/
def Location.Proper (l : Location) : Prop := ∀ s ∈ l, FileTree.isRelative s = false

theorem Location.Proper.nil : Location.Proper [] := List.forall_mem_nil _

theorem Location.Proper.dropLast (h : l.Proper) : Location.Proper l.dropLast :=
  fun s hs => h s (List.mem_of_mem_dropLast hs)

theorem Location.Proper.concat (h : l.Proper) (name : FileTree.isRelative s = false) :
    Location.Proper (l ++ [s]) := by
  intro r hr
  rcases List.mem_append.mp hr with hr | hr
  · exact h r hr
  · exact List.mem_singleton.mp hr ▸ name

/-- All that the tree holds has a name of its own. -/
def FileTree.Proper (t : FileTree) : Prop := ∀ f ∈ t.entries, f.1.Proper

theorem FileTree.Proper.of_get? (h : t.Proper) {e : FileEntry} (there : t.get? l = some e) :
    l.Proper := by
  by_cases root : l = []
  · rw [root]
    exact .nil
  · exact h _ (mem_of_get? root there)

/-! ### The path of a location -/

namespace Path

theorem Component.ofSegment?_eq_name_iff {r : String} :
    Component.ofSegment? s = some (.name r) ↔ r = s ∧ FileTree.isRelative s = false := by
  have proper : FileTree.isRelative s = false ↔ ¬ (s = "" ∨ s = ".") ∧ ¬ s = ".." := by
    simp [FileTree.isRelative]
  rw [ofSegment?, proper]
  by_cases gap : s = "" ∨ s = "."
  · rw [if_pos gap]
    exact iff_of_false (by simp) fun h => h.2.1 gap
  · rw [if_neg gap]
    by_cases up : s = ".."
    · rw [if_pos up]
      exact iff_of_false (by simp) fun h => h.2.2 up
    · rw [if_neg up, Option.some.injEq, name.injEq, eq_comm]
      exact (and_iff_left ⟨gap, up⟩).symm

theorem filterMap_ofSegment?_of_proper (h : l.Proper) :
    l.filterMap Component.ofSegment? = l.map .name := by
  rw [← List.filterMap_eq_map]
  exact List.filterMap_congr fun s hs => Component.ofSegment?_eq_name_iff.mpr ⟨rfl, h s hs⟩

theorem components_ofLocation (h : l.Proper) : (ofLocation l).components = .root :: l.map .name :=
  congrArg (List.cons Component.root) (filterMap_ofSegment?_of_proper h)

theorem foldl_follow_names (r : Route) (names : List String) :
    (names.map Component.name).foldl Route.follow r = ⟨r.climbs, r.names ++ names⟩ := by
  induction names generalizing r with
  | nil => rw [List.append_nil]; rfl
  | cons s names ih =>
      rw [List.map_cons, List.foldl_cons, Route.follow_name, ih, List.append_assoc,
        List.singleton_append]

theorem route_ofLocation (h : l.Proper) : (ofLocation l).route = ⟨0, l⟩ := by
  rw [route, components_ofLocation h, List.foldl_cons, foldl_follow_names]
  rfl

/-- An absolute path that does not climb above the root is normalized to the path of its place. -/
theorem normalize_of_climbs_eq_zero (absolute : p.absolute = true) (level : p.route.climbs = 0)
    (base : Location) : p.normalize = ofLocation (p.place base) := by
  rw [normalize_eq, level, place_of_absolute base absolute, absolute]
  rfl

/-- The place of a path by its segments. -/
theorem place_eq_foldl (base : Location) (p : Path) :
    p.place base = (p.segments.filterMap Component.ofSegment?).foldl enter
      (if p.absolute then [] else base) := by
  rw [place, components]
  split
  · rfl
  · split
    · next ss dot =>
      rw [dot]
      rfl
    · rfl

theorem place_ofLocation (h : l.Proper) (base : Location) : (ofLocation l).place base = l := by
  rw [place_of_absolute base rfl, route_ofLocation h]

theorem normalize_ofLocation (h : l.Proper) : (ofLocation l).normalize = ofLocation l := by
  have level : (ofLocation l).route.climbs = 0 := by rw [route_ofLocation h]
  rw [normalize_of_climbs_eq_zero rfl level [], place_ofLocation h]

theorem normal_ofLocation (h : l.Proper) : (ofLocation l).Normal := ⟨_, normalize_ofLocation h⟩

theorem ofLocation_inj : ofLocation l = ofLocation m ↔ l = m := by
  rw [ofLocation, ofLocation, mk.injEq, and_iff_right rfl]

/-- A path with the components of a location is normalized to it. -/
theorem normalize_of_sameAs (proper : l.Proper) (same : p.sameAs (ofLocation l) = true) :
    p.normalize = ofLocation l := by
  have components : p.components = (ofLocation l).components := of_decide_eq_true same
  rw [normalize, components]
  exact normalize_ofLocation proper

/-- What is below the root has a directory. -/
theorem absolute_directory (h : l.Proper) (below : l ≠ []) :
    (ofLocation l).directory.absolute = true := by
  obtain ⟨s, ss, rfl⟩ := List.exists_cons_of_ne_nil below
  have named : (s = "" || s = ".") = false := by
    have proper := h s List.mem_cons_self
    rw [FileTree.isRelative, Bool.or_eq_false_iff] at proper
    exact proper.1
  have kept : trimEnd true (s :: ss) =
      s :: (ss.reverse.dropWhile fun t => t = "" || t = ".").reverse := by
    rw [trimEnd, named, Bool.and_false, if_neg Bool.false_ne_true]
  rw [directory, parent?, ofLocation, kept]
  rfl

theorem checkName_eq_ok_iff : p.checkName = .ok () ↔
    (∀ s ∈ p.segments, '\x00' ∉ s.toList) ∧ p ≠ empty := by
  have zero : p.hasZero = false ↔ ∀ s ∈ p.segments, '\x00' ∉ s.toList := by
    simp [hasZero]
  rw [← zero, checkName]
  by_cases z : p.hasZero = true
  · simp [z]
  · rw [if_neg z]
    by_cases none : p = empty
    · simp [none]
    · simp [z, none]

theorem absolute_join (h : p.absolute = true) : (p.join q).absolute = true := by
  rw [join]
  split_ifs with absolute missing
  · exact absolute
  · rw [missing] at h
    cases h
  · exact h
  · exact h
  all_goals exact h

end Path

/-! ### Following -/

namespace FileTree

/-- A step that can be made leads where its component names. -/
theorem step_eq (h : t.step l s = .ok m) :
    m = (Component.ofSegment? s).elim l (Path.enter l) := by
  rw [step] at h
  split at h
  · cases h
  · cases h
  · rw [Component.ofSegment?]
    split at h
    · next gap =>
      rw [if_pos gap]
      exact (Except.ok.inj h).symm
    · next noGap =>
      rw [if_neg noGap]
      split at h
      · next up =>
        rw [if_pos up]
        exact (Except.ok.inj h).symm
      · next noUp =>
        rw [if_neg noUp]
        split at h
        · cases h
        · split at h
          · exact (Except.ok.inj h).symm
          · cases h

/-- Steps are made in directories only. -/
theorem get?_of_step (h : t.step l s = .ok m) : t.get? l = some .directory := by
  rw [step] at h
  split at h
  · cases h
  · cases h
  · assumption

theorem proper_of_step (proper : l.Proper) (h : t.step l s = .ok m) : m.Proper := by
  obtain rfl := step_eq h
  cases component : Component.ofSegment? s with
  | none => exact proper
  | some c =>
      cases c with
      | root => exact .nil
      | here => exact proper
      | up => exact proper.dropLast
      | name r =>
          obtain ⟨rfl, name⟩ := Component.ofSegment?_eq_name_iff.mp component
          exact proper.concat name

theorem exists_of_foldlM_cons {f : Location → String → Except FileError Location}
    {segments : List String} (h : (s :: segments).foldlM f l = .ok m) :
    ∃ k, f l s = .ok k ∧ segments.foldlM f k = .ok m := by
  rw [List.foldlM_cons] at h
  cases first : f l s with
  | error e =>
      rw [first] at h
      cases h
  | ok k =>
      rw [first] at h
      exact ⟨k, rfl, h⟩

theorem follow_eq {segments : List String} (h : segments.foldlM t.step l = .ok m) :
    m = (segments.filterMap Component.ofSegment?).foldl Path.enter l := by
  induction segments generalizing l with
  | nil => exact (Except.ok.inj h).symm
  | cons s ss ih =>
      obtain ⟨k, first, rest⟩ := exists_of_foldlM_cons h
      rw [ih rest, step_eq first, List.filterMap_cons]
      cases Component.ofSegment? s <;> rfl

theorem proper_of_follow {segments : List String} (proper : l.Proper)
    (h : segments.foldlM t.step l = .ok m) : m.Proper := by
  induction segments generalizing l with
  | nil => exact Except.ok.inj h ▸ proper
  | cons s ss ih =>
      obtain ⟨k, first, rest⟩ := exists_of_foldlM_cons h
      exact ih (proper_of_step proper first) rest

/-- A path that leads somewhere leads to its place. -/
theorem locate_eq (h : t.locate p = .ok l) : l = p.place t.here := by
  rw [locate] at h
  split at h
  · cases h
  · rw [Path.place_eq_foldl]
    exact follow_eq h

theorem follow_of_stepByName {segments : List String}
    (h : segments.foldlM t.stepByName l = .ok m) : segments.foldlM t.step l = .ok m := by
  induction segments generalizing l with
  | nil => exact h
  | cons s ss ih =>
      obtain ⟨k, first, rest⟩ := exists_of_foldlM_cons h
      rw [stepByName] at first
      split at first
      · next k' made =>
        cases first
        rw [List.foldlM_cons, made]
        exact ih rest
      · cases first

/-- The path from the root that is found for a path is that of its place, and its names are
proper: a relative path is followed from a directory that the tree holds. -/
theorem canonical_eq (proper : t.Proper) (h : t.canonical p = .ok q) :
    q = .ofLocation (p.place t.here) ∧ Location.Proper (p.place t.here) := by
  rw [canonical] at h
  split at h
  · cases h
  · next named =>
    cases found : p.segments.foldlM t.stepByName (if p.absolute then [] else t.here) with
    | error e =>
        rw [found] at h
        cases h
    | ok l =>
        rw [found] at h
        cases h
        have followed := follow_of_stepByName found
        have start : Location.Proper (if p.absolute then [] else t.here) := by
          obtain ⟨absolute, segments⟩ := p
          cases absolute with
          | true => exact .nil
          | false =>
              cases segments with
              | nil => cases named
              | cons s ss =>
                  obtain ⟨k, first, -⟩ := exists_of_foldlM_cons followed
                  exact proper.of_get? (get?_of_step first)
        have reached := proper_of_follow start followed
        rw [follow_eq followed, ← Path.place_eq_foldl] at reached ⊢
        exact ⟨rfl, reached⟩

/-! ### What can be found -/

theorem checkWhole_eq_ok_iff : p.checkWhole = .ok () ↔
    (∀ s ∈ p.segments, '\x00' ∉ s.toList) ∧ p ≠ .empty ∧
      p.text.utf8ByteSize ≤ Path.lengthLimit := by
  rw [← and_assoc, ← Path.checkName_eq_ok_iff, Path.checkWhole, Path.isTooLong]
  cases p.checkName with
  | error e => simp
  | ok => simp

theorem locate_eq_ok_iff :
    t.locate p = .ok l ↔ p.checkWhole = .ok () ∧ t.follow p.absolute p.segments = .ok l := by
  rw [locate]
  cases p.checkWhole with
  | error e => simp
  | ok => simp

/-- A path need not be short to be found from the root. -/
theorem canonical_of_follow (named : p.checkName = .ok ())
    (h : t.follow p.absolute p.segments = .ok l) : t.canonical p = .ok (.ofLocation l) := by
  rw [canonical, named]
  dsimp only
  rw [foldlM_stepByName h]
  rfl

/-- Everything above what a tree holds is a directory. -/
theorem get?_above {e : FileEntry} (h : t.get? (l ++ m) = some e) (below : m ≠ []) :
    t.get? l = some .directory := by
  induction m using List.reverseRecOn generalizing e with
  | nil => exact absurd rfl below
  | append_singleton m s ih =>
      rw [← List.append_assoc] at h
      have parent := (t.parent_mem _ (mem_of_get? (by simp) h)).2
      rw [List.dropLast_concat] at parent
      have directory : t.get? (l ++ m) = some .directory := by
        rcases parent with root | mem
        · rw [root, get?_root]
        · exact get?_of_mem mem
      by_cases last : m = []
      · rwa [last, List.append_nil] at directory
      · exact ih directory last

theorem step_name (dir : t.get? l = some .directory) (name : isRelative s = false)
    (short : s.utf8ByteSize ≤ nameLimit) (there : (t.get? (l ++ [s])).isSome) :
    t.step l s = .ok (l ++ [s]) := by
  simp only [isRelative, Bool.or_eq_false_iff, decide_eq_false_iff_not] at name
  rw [step, dir]
  dsimp only
  rw [if_neg (by simp [name]), if_neg name.2, if_neg (by omega), if_pos there]

/-- What stands in a tree is found by its names, if they are not too long. -/
theorem follow_names {e : FileEntry} (there : t.get? (l ++ m) = some e) (names : m.Proper)
    (short : ∀ s ∈ m, s.utf8ByteSize ≤ nameLimit) : m.foldlM t.step l = .ok (l ++ m) := by
  induction m generalizing l with
  | nil => rw [List.append_nil]; rfl
  | cons s m ih =>
      have dir := get?_above there (List.cons_ne_nil s m)
      rw [List.append_cons] at there
      have next : (t.get? (l ++ [s])).isSome := by
        by_cases last : m = []
        · rw [last, List.append_nil] at there
          rw [there]
          rfl
        · rw [get?_above there last]
          rfl
      have first := step_name dir (names s List.mem_cons_self) (short s List.mem_cons_self) next
      have rest := ih there (fun r hr => names r (List.mem_cons_of_mem _ hr))
        fun r hr => short r (List.mem_cons_of_mem _ hr)
      rw [List.foldlM_cons, first, List.append_cons l s m]
      exact rest

end FileTree

end MetaAttack
