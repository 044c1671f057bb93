import MetaAttack.Proofs.Inclusion
import MetaAttack.Proofs.NormalPath

/-!
# Where paths lead

A path leads from a directory to a place. What counts is how often it climbs above its start and by
which names it descends from there: its route. Two paths lead to the same place from every directory
that is deep enough exactly if they agree in this. Normalizing keeps the names, and of the climbs
only whether they are an odd number, because a second `..` at the start cancels the first one.
-/

namespace MetaAttack.Path

variable {p q : Path} {c : Component} {cs : List Component} {base : List String}

/-! ### Routes -/

/-- How often a path climbs above its start, and the names by which it descends from there. -/
structure Route where
  climbs : Nat
  names : List String
deriving DecidableEq, Repr

namespace Route

def start : Route := ⟨0, []⟩

/-- Follows one more component. A `..` cancels the nearest name before it; where there is none, it
climbs. -/
def follow (r : Route) : Component → Route
  | .root | .here => r
  | .up =>
      if r.names = [] then { r with climbs := r.climbs + 1 }
      else { r with names := r.names.dropLast }
  | .name s => { r with names := r.names ++ [s] }

@[simp] theorem follow_name (r : Route) (s : String) :
    r.follow (.name s) = ⟨r.climbs, r.names ++ [s]⟩ := rfl

theorem follow_up_of_nil {r : Route} (h : r.names = []) : r.follow .up = ⟨r.climbs + 1, []⟩ := by
  rw [follow, if_pos h, h]

theorem follow_up_of_ne {r : Route} (h : r.names ≠ []) :
    r.follow .up = ⟨r.climbs, r.names.dropLast⟩ := by
  rw [follow, if_neg h]

end Route

/-- The route of a path. -/
def route (p : Path) : Route := p.components.foldl Route.follow .start

/-- The path without every `.` and without every `..` that cancels a name. The `..` that climb stay,
but there is nothing above the root. -/
def resolved (p : Path) : Path :=
  ⟨p.absolute, List.replicate (if p.absolute then 0 else p.route.climbs) ".." ++ p.route.names⟩

/-! ### Components -/

theorem ne_root_of_ofSegment? {ss : List String} :
    ∀ c ∈ ss.filterMap Component.ofSegment?, c ≠ .root := by
  rintro c hc rfl
  obtain ⟨s, _, hs⟩ := List.mem_filterMap.mp hc
  exact Component.not_plain_root (Component.plain_of_ofSegment? hs)

/-- The root stands in front of an absolute path, and nowhere else. -/
theorem components_shape (p : Path) :
    ∃ cs, (∀ c ∈ cs, c ≠ .root) ∧ p.components = if p.absolute then .root :: cs else cs := by
  rw [components]
  split
  · exact ⟨_, ne_root_of_ofSegment?, rfl⟩
  · split
    · next ss _ =>
      refine ⟨.here :: ss.filterMap Component.ofSegment?, ?_, rfl⟩
      rw [List.forall_mem_cons]
      exact ⟨by simp, ne_root_of_ofSegment?⟩
    · exact ⟨_, ne_root_of_ofSegment?, rfl⟩

theorem ne_up_of_mem_components {s : String} (h : .name s ∈ p.components) : s ≠ ".." := by
  have plain : ∀ {ss : List String}, .name s ∈ ss.filterMap Component.ofSegment? → s ≠ ".." := by
    rintro ss hs rfl
    obtain ⟨t, _, ht⟩ := List.mem_filterMap.mp hs
    cases Component.plain_of_ofSegment? ht
  rw [components] at h
  split at h
  · exact plain (List.mem_of_ne_of_mem (by simp) h)
  · split at h
    · exact plain (List.mem_of_ne_of_mem (by simp) h)
    · exact plain h

theorem mem_names_foldl_follow {r : Route} {s : String} (h : s ∈ (cs.foldl Route.follow r).names) :
    s ∈ r.names ∨ .name s ∈ cs := by
  induction cs generalizing r with
  | nil => exact .inl h
  | cons c cs ih =>
      rcases ih h with earlier | later
      · cases c with
        | root | here => exact .inl earlier
        | up =>
            left
            rw [Route.follow] at earlier
            split at earlier
            · exact earlier
            · exact List.mem_of_mem_dropLast earlier
        | name t =>
            rw [Route.follow_name, List.mem_append, List.mem_singleton] at earlier
            rcases earlier with earlier | rfl
            · exact .inl earlier
            · exact .inr List.mem_cons_self
      · exact .inr (List.mem_cons_of_mem _ later)

theorem ne_up_of_mem_route {s : String} (h : s ∈ p.route.names) : s ≠ ".." := by
  rcases mem_names_foldl_follow h with h | h
  · cases h
  · exact ne_up_of_mem_components h

/-! ### Normalizing -/

/-- The components that normalizing has kept of a route. -/
def Route.kept (absolute : Bool) (r : Route) : List Component :=
  (if absolute then [.root] else []) ++
    (List.replicate (r.climbs % 2) .up ++ r.names.map .name)

theorem pushNormal_kept (absolute : Bool) (r : Route) (h : c ≠ .root) :
    pushNormal (r.kept absolute) c = (r.follow c).kept absolute := by
  cases c with
  | root => exact absurd rfl h
  | here => rfl
  | name s => simp [pushNormal, Route.kept]
  | up =>
      by_cases bare : r.names = []
      · -- the stack holds the root and the climbs only, of which at most one is left
        rw [Route.follow_up_of_nil bare]
        rcases Nat.mod_two_eq_zero_or_one r.climbs with even | odd
        · have next : (r.climbs + 1) % 2 = 1 := by omega
          cases absolute <;> simp [pushNormal, Route.kept, bare, even, next]
        · have next : (r.climbs + 1) % 2 = 0 := by omega
          cases absolute <;> simp [pushNormal, Route.kept, bare, odd, next]
      · rw [Route.follow_up_of_ne bare]
        obtain ⟨names, s, hs⟩ := List.eq_nil_or_concat r.names |>.resolve_left bare
        have shape : r.kept absolute =
            Route.kept absolute ⟨r.climbs, names⟩ ++ [.name s] := by simp [Route.kept, hs]
        have proper : ¬ (r.kept absolute = [] ∨ r.kept absolute = [.root]) := by
          rw [shape, List.append_eq_singleton_iff]
          simp
        rw [pushNormal, if_neg proper, shape, List.dropLast_concat, hs, List.concat_eq_append,
          List.dropLast_concat]

theorem foldl_pushNormal_kept (absolute : Bool) (r : Route) (h : ∀ c ∈ cs, c ≠ .root) :
    cs.foldl pushNormal (r.kept absolute) = (cs.foldl Route.follow r).kept absolute := by
  induction cs generalizing r with
  | nil => rfl
  | cons c cs ih =>
      rw [List.forall_mem_cons] at h
      rw [List.foldl_cons, List.foldl_cons, pushNormal_kept absolute r h.1]
      exact ih _ h.2

theorem foldl_pushNormal_components (p : Path) :
    p.components.foldl pushNormal [] = p.route.kept p.absolute := by
  obtain ⟨cs, plain, shape⟩ := p.components_shape
  have run := foldl_pushNormal_kept p.absolute .start plain
  rw [route, shape]
  generalize p.absolute = absolute at run
  cases absolute <;> exact run

/-- Normalizing keeps the names of a route and, of its climbs, one if they are an odd number. -/
theorem normalize_eq (p : Path) :
    p.normalize =
      ⟨p.absolute, List.replicate (p.route.climbs % 2) ".." ++ p.route.names⟩ := by
  have segments : (List.replicate (p.route.climbs % 2) Component.up ++
      p.route.names.map Component.name).map Component.segment =
        List.replicate (p.route.climbs % 2) ".." ++ p.route.names := by
    simp [Component.segment, Function.comp_def]
  rw [normalize, foldl_pushNormal_components, Route.kept, ← segments]
  cases p.absolute with
  | true => rfl
  | false =>
      rw [if_neg Bool.false_ne_true, List.nil_append, ofComponents]
      rintro cs root
      have mem : Component.root ∈ List.replicate (p.route.climbs % 2) Component.up ++
          p.route.names.map Component.name := root ▸ List.mem_cons_self
      simp at mem

/-- A path that starts with some `..` and goes on by names is known by their number and the
names. -/
theorem replicate_up_append_inj {m n : Nat} {xs ys : List String} (hx : ".." ∉ xs)
    (hy : ".." ∉ ys) :
    List.replicate m ".." ++ xs = List.replicate n ".." ++ ys ↔ m = n ∧ xs = ys := by
  refine ⟨fun h => ?_, fun ⟨hm, hxy⟩ => by rw [hm, hxy]⟩
  have count := congrArg (List.count "..") h
  simp only [List.count_append, List.count_replicate_self, List.count_eq_zero_of_not_mem hx,
    List.count_eq_zero_of_not_mem hy, Nat.add_zero] at count
  exact ⟨count, List.append_cancel_left (count ▸ h)⟩

theorem up_not_mem_names (p : Path) : ".." ∉ p.route.names := fun h => ne_up_of_mem_route h rfl

theorem normalize_eq_iff :
    p.normalize = q.normalize ↔
      p.absolute = q.absolute ∧ p.route.climbs % 2 = q.route.climbs % 2 ∧
        p.route.names = q.route.names := by
  rw [normalize_eq, normalize_eq, mk.injEq,
    replicate_up_append_inj p.up_not_mem_names q.up_not_mem_names]

theorem resolved_eq_iff :
    p.resolved = q.resolved ↔
      p.absolute = q.absolute ∧ (p.absolute = false → p.route.climbs = q.route.climbs) ∧
        p.route.names = q.route.names := by
  rw [resolved, resolved, mk.injEq, replicate_up_append_inj p.up_not_mem_names q.up_not_mem_names]
  grind

/-- The path climbs at most once, or is absolute and has an even number of `..` to drop. -/
def Level (p : Path) : Prop :=
  if p.absolute then p.route.climbs % 2 = 0 else p.route.climbs ≤ 1

theorem normalize_eq_resolved_iff : p.normalize = p.resolved ↔ p.Level := by
  rw [normalize_eq, resolved, mk.injEq,
    replicate_up_append_inj p.up_not_mem_names p.up_not_mem_names, Level]
  cases p.absolute <;> grind

/-! ### Places -/

/-- Goes on from a directory, given by the names on the way down to it. Nothing is above the
root. -/
def enter (dir : List String) : Component → List String
  | .root => []
  | .here => dir
  | .up => dir.dropLast
  | .name s => dir ++ [s]

/-- The place to which a path leads from a directory. -/
def place (base : List String) (p : Path) : List String := p.components.foldl enter base

/-- From every directory that is deep enough, the paths lead to the same place. -/
def SamePlace (p q : Path) : Prop :=
  ∃ depth, ∀ base : List String, depth ≤ base.length → p.place base = q.place base

/-- Where a route leads. -/
def Route.below (base : List String) (r : Route) : List String :=
  base.take (base.length - r.climbs) ++ r.names

theorem enter_below (base : List String) (r : Route) (h : c ≠ .root) :
    enter (r.below base) c = (r.follow c).below base := by
  cases c with
  | root => exact absurd rfl h
  | here => rfl
  | name s => simp [enter, Route.below]
  | up =>
      by_cases bare : r.names = []
      · rw [Route.follow_up_of_nil bare, enter, Route.below, Route.below, bare, List.append_nil,
          List.append_nil, List.dropLast_eq_take, List.length_take, List.take_take]
        congr 1
        dsimp only
        omega
      · rw [Route.follow_up_of_ne bare, enter, Route.below, Route.below,
          List.dropLast_append_of_ne_nil bare]

theorem foldl_enter_below (base : List String) (r : Route) (h : ∀ c ∈ cs, c ≠ .root) :
    cs.foldl enter (r.below base) = (cs.foldl Route.follow r).below base := by
  induction cs generalizing r with
  | nil => rfl
  | cons c cs ih =>
      rw [List.forall_mem_cons] at h
      rw [List.foldl_cons, List.foldl_cons, enter_below base r h.1]
      exact ih _ h.2

/-- A path leads where its route leads, from the root or from the directory. -/
theorem place_eq (base : List String) (p : Path) :
    p.place base = p.route.below (if p.absolute then [] else base) := by
  obtain ⟨cs, plain, shape⟩ := p.components_shape
  have run := foldl_enter_below (if p.absolute then [] else base) .start plain
  have start : ∀ base : List String, Route.start.below base = base := by
    simp [Route.below, Route.start]
  rw [start] at run
  rw [place, route, shape]
  generalize p.absolute = absolute at run
  cases absolute <;> exact run

theorem place_of_absolute (base : List String) (h : p.absolute = true) :
    p.place base = p.route.names := by
  rw [place_eq, if_pos h, Route.below, List.take_nil, List.nil_append]

theorem place_of_relative (base : List String) (h : p.absolute = false) :
    p.place base = base.take (base.length - p.route.climbs) ++ p.route.names := by
  rw [place_eq, if_neg (by simp [h]), Route.below]

theorem length_place_of_relative (h : p.absolute = false) (deep : p.route.climbs ≤ base.length) :
    (p.place base).length = base.length - p.route.climbs + p.route.names.length := by
  rw [place_of_relative base h, List.length_append, List.length_take]
  omega

theorem SamePlace.symm (h : p.SamePlace q) : q.SamePlace p := by
  obtain ⟨depth, same⟩ := h
  exact ⟨depth, fun base deep => (same base deep).symm⟩

/-- A relative path leads deeper and deeper, an absolute one always to one place. -/
theorem not_samePlace_of_absolute (hp : p.absolute = true) (hq : q.absolute = false) :
    ¬ p.SamePlace q := by
  rintro ⟨depth, same⟩
  have far (n : Nat) (hn : depth + q.route.climbs ≤ n) :
      p.route.names.length = n - q.route.climbs + q.route.names.length := by
    have deep : q.route.climbs ≤ (List.replicate n "").length := by
      rw [List.length_replicate]
      omega
    have here := same (List.replicate n "") (by rw [List.length_replicate]; omega)
    rw [place_of_absolute _ hp] at here
    rw [here, length_place_of_relative hq deep, List.length_replicate]
  have near := far (depth + q.route.climbs) le_rfl
  have beyond := far (depth + q.route.climbs + 1) (Nat.le_succ _)
  omega

/-- If relative paths lead to the same place, they climb equally often: otherwise one of them would
descend by the names of directories that the other has not left. -/
theorem climbs_le_of_samePlace (hp : p.absolute = false) (hq : q.absolute = false)
    (h : p.SamePlace q) : p.route.climbs ≤ q.route.climbs := by
  obtain ⟨depth, same⟩ := h
  by_contra more
  -- the name at this depth is that of a directory on one side, whatever that is called
  have descends (s : String) : p.route.names[0]? = some s := by
    have here := same (List.replicate (depth + p.route.climbs) s) (by simp)
    rw [place_of_relative _ hp, place_of_relative _ hq, List.length_replicate, List.take_replicate,
      List.take_replicate] at here
    have at_depth := congrArg (·[depth]?) here
    have below : depth < depth + p.route.climbs - q.route.climbs := by omega
    simpa [List.getElem?_append, List.getElem?_replicate, below] using at_depth
  have clash := (descends "a").symm.trans (descends "b")
  simp at clash

/-- Paths lead to the same place where they are both absolute or climb equally often, and descend by
the same names. -/
theorem samePlace_iff :
    p.SamePlace q ↔
      p.absolute = q.absolute ∧ (p.absolute = false → p.route.climbs = q.route.climbs) ∧
        p.route.names = q.route.names := by
  constructor
  · intro h
    cases hp : p.absolute <;> cases hq : q.absolute
    · have climbs : p.route.climbs = q.route.climbs :=
        (climbs_le_of_samePlace hp hq h).antisymm (climbs_le_of_samePlace hq hp h.symm)
      obtain ⟨depth, same⟩ := h
      have here := same (List.replicate depth "") (by simp)
      rw [place_of_relative _ hp, place_of_relative _ hq, climbs] at here
      exact ⟨rfl, fun _ => climbs, List.append_cancel_left here⟩
    · exact absurd h.symm (not_samePlace_of_absolute hq hp)
    · exact absurd h (not_samePlace_of_absolute hp hq)
    · obtain ⟨depth, same⟩ := h
      have here := same (List.replicate depth "") (by simp)
      rw [place_of_absolute _ hp, place_of_absolute _ hq] at here
      exact ⟨rfl, nofun, here⟩
  · rintro ⟨absolute, climbs, names⟩
    refine ⟨0, fun base _ => ?_⟩
    cases hp : p.absolute with
    | true =>
        rw [place_of_absolute _ hp, place_of_absolute _ (absolute ▸ hp), names]
    | false =>
        rw [place_of_relative _ hp, place_of_relative _ (absolute ▸ hp), climbs hp, names]

/-! ### Files in memory -/

/-- What is under a path was added under one that normalizing takes for it. -/
theorem exists_of_text?_foldl_insert {m : MemoryFiles} {files : List (Path × String)}
    {text : String} (h : (files.foldl (fun m f => m.insert f.1 f.2) m).text? p = some text) :
    m.text? p = some text ∨ ∃ f ∈ files, f.1.normalize = p ∧ f.2 = text := by
  induction files generalizing m with
  | nil => exact .inl h
  | cons f files ih =>
      rcases ih h with before | ⟨g, hg, found⟩
      · rw [MemoryFiles.text?_insert] at before
        split at before
        · next here => exact .inr ⟨f, List.mem_cons_self, here, Option.some.inj before⟩
        · exact .inl before
      · exact .inr ⟨g, List.mem_cons_of_mem _ hg, found⟩

theorem samePlace_of_normalize_eq (hp : p.Level) (hq : q.Level) (h : p.normalize = q.normalize) :
    p.SamePlace q := by
  rw [normalize_eq_resolved_iff.mpr hp, normalize_eq_resolved_iff.mpr hq, resolved_eq_iff] at h
  exact samePlace_iff.mpr h

/-- Normalizing tells of a path how it is resolved, but of the climbs of a relative path, and of the
`..` right below the root, only whether they are an odd number. So it is the resolved path where at
most one `..` climbs and an even number is right below the root, and it takes two relative paths for
the same exactly where they descend by the same names and their climbs differ by an even number;
they lead to the same place where the climbs do not differ. The file that is served for a path was
added under one that normalizing takes for the same. -/
theorem normalize_up_to_parity (p q : Path) (files : List (Path × String)) (dir : Path)
    (i : Include) :
    (p.normalize = ⟨p.absolute, List.replicate (p.route.climbs % 2) ".." ++ p.route.names⟩) ∧
    (p.normalize = p.resolved ↔ p.Level) ∧
    (p.SamePlace q ↔ p.resolved = q.resolved) ∧
    (p.absolute = false → q.absolute = false →
      (p.SamePlace q ↔ p.normalize = q.normalize ∧ p.route.climbs = q.route.climbs)) ∧
    ∀ file, (MemoryFiles.ofList files).load (MemoryFiles.target dir i) = .ok file →
      ∃ f ∈ files, f.2 = file.text ∧ f.1.normalize = (dir.join (.ofText i.path)).normalize ∧
        (f.1.Level → (dir.join (.ofText i.path)).Level →
          f.1.SamePlace (dir.join (.ofText i.path))) := by
  refine ⟨normalize_eq p, normalize_eq_resolved_iff, samePlace_iff.trans resolved_eq_iff.symm,
    fun hp hq => ?_, fun file loaded => ?_⟩
  · rw [samePlace_iff, normalize_eq_iff]
    grind
  · have text := (MemoryFiles.load_eq_ok_iff.mp loaded).1
    rcases exists_of_text?_foldl_insert text with none | ⟨f, hf, under, same⟩
    · cases none
    · exact ⟨f, hf, same, under, fun level level' => samePlace_of_normalize_eq level level' under⟩

/-- Two `..` at the start cancel each other: the paths lead to different places, and the file beside
the including one is served for the one two directories above it. -/
theorem normalize_twoUp :
    (ofText "../../x.mal").normalize = (ofText "x.mal").normalize ∧
      ¬ (ofText "../../x.mal").SamePlace (ofText "x.mal") ∧
      (ofText "/../x.mal").normalize ≠ (ofText "/x.mal").normalize ∧
      (ofText "/../x.mal").SamePlace (ofText "/x.mal") ∧
      ((MemoryFiles.ofList [(ofText "x.mal", "")]).load
        (MemoryFiles.target (ofText "main.mal").directory ⟨"../../x.mal", .nowhere⟩)).isOk =
          true := by
  rw [samePlace_iff, samePlace_iff]
  decide +kernel

end MetaAttack.Path
