import MetaAttack.Proofs.Inclusion
import MetaAttack.Proofs.Independence
import MetaAttack.Proofs.NormalPath
import MetaAttack.Proofs.Unfolding

/-!
# Inlining

The loader of a collection of files unfolds the items of a file as the collection does, up to the
first path that cannot be used; there it stops with the reason. So an analysis of files is one of a
single specification without includes, in which the first include of each file was replaced by what
the file declares and the others were deleted, and it fails exactly where a file that can be reached
cannot be used.
-/

namespace MetaAttack.MemoryFiles

variable {m : MemoryFiles} {dir path q : Path} {seen order : List Path} {items : List Item}
variable {flat : List Declaration} {e : FatalError}

/-- The reason why a path cannot be used. -/
def refusal? (m : MemoryFiles) (q : Path) : Option FatalError :=
  match m.load q with
  | .ok _ => none
  | .error e => some e

/-- A path is refused for what is wrong with the file there. -/
theorem refusal?_eq_some_iff : m.refusal? q = some e ↔ m.Refused q e := by
  rw [← load_eq_error_iff, refusal?]
  split <;> simp [*]

theorem refusal?_eq_none_iff : m.refusal? q = none ↔ ¬ m.Unusable q := by
  rw [Option.eq_none_iff_forall_ne_some]
  simp only [ne_eq, refusal?_eq_some_iff, Unusable, not_exists]

/-- Includes name normal paths, so the paths met stay normal. -/
theorem normal_concat {i : Include} (normal : ∀ p ∈ seen, p.Normal) :
    ∀ p ∈ seen ++ [target dir i], p.Normal := by
  intro p hp
  rcases List.mem_append.mp hp with hp | hp
  · exact normal p hp
  · exact List.mem_singleton.mp hp ▸ Path.normal_normalize _

/-- All paths that unfolding meets are normal, as those met before were. -/
theorem Unfolds.normal (h : m.Unfolds seen dir items order flat)
    (normal : ∀ p ∈ seen, p.Normal) : ∀ p ∈ seen ++ order, p.Normal := by
  induction h with
  | done => rwa [List.append_nil]
  | declaration _ ih | again _ _ ih => exact ih normal
  | @enter seen dir i _ inner _ _ _ _ _ _ ihi ihr =>
      have inside : ∀ p ∈ seen ++ target dir i :: inner, p.Normal := by
        rw [List.append_cons]
        exact ihi (normal_concat normal)
      have all := ihr inside
      rwa [List.append_assoc, List.cons_append] at all

/-- Among normal paths, the walk takes an include for one of a file met before where it is one. -/
theorem visited_target_iff {i : Include} (normal : ∀ p ∈ seen, p.Normal) :
    seen.any (m.loader.resolve dir i.path).sameAs = true ↔ target dir i ∈ seen :=
  (Path.normal_normalize _).any_sameAs_iff normal

theorem Unfolds.normal_entered {i : Include}
    (inside : m.Unfolds (seen ++ [target dir i]) path items order flat)
    (normal : ∀ p ∈ seen, p.Normal) : ∀ p ∈ seen ++ target dir i :: order, p.Normal := by
  rw [List.append_cons]
  exact inside.normal (normal_concat normal)

/-- Where all files met can be used, the loader unfolds the items alike. -/
theorem Unfolds.loads (h : m.Unfolds seen dir items order flat) (normal : ∀ p ∈ seen, p.Normal)
    (usable : ∀ p ∈ order, m.refusal? p = none) :
    m.loader.Unfolds seen dir items order flat none := by
  induction h with
  | done => exact .done
  | declaration _ ih => exact .declaration (ih normal usable)
  | again met _ ih => exact .again ((visited_target_iff normal).mpr met) (ih normal usable)
  | @enter seen dir i items inner order innerFlat flat new inside _ ihi ihr =>
      rw [List.cons_append, List.forall_mem_cons, List.forall_mem_append] at usable
      cases loaded : m.load (target dir i) with
      | error e =>
          rw [refusal?, loaded] at usable
          cases usable.1
      | ok file =>
          have entered := ihi (normal_concat normal) usable.2.1
          rw [itemsOf_of_load loaded] at entered
          exact .enter (mt (visited_target_iff normal).mp new) loaded entered
            (ihr (inside.normal_entered normal) usable.2.2)

/-- The loader stops with the reason why the first unusable file met cannot be used. -/
theorem Unfolds.stops (h : m.Unfolds seen dir items order flat) (normal : ∀ p ∈ seen, p.Normal)
    (first : order.findSome? m.refusal? = some e) :
    ∃ order flat, m.loader.Unfolds seen dir items order flat (some e) := by
  induction h with
  | done => cases first
  | declaration _ ih =>
      obtain ⟨_, _, rest⟩ := ih normal first
      exact ⟨_, _, .declaration rest⟩
  | again met _ ih =>
      obtain ⟨_, _, rest⟩ := ih normal first
      exact ⟨_, _, .again ((visited_target_iff normal).mpr met) rest⟩
  | @enter seen dir i items inner order innerFlat flat new inside _ ihi ihr =>
      have unvisited : ¬ seen.any (m.loader.resolve dir i.path).sameAs = true :=
        mt (visited_target_iff normal).mp new
      rw [List.cons_append, List.findSome?_cons] at first
      cases loaded : m.load (target dir i) with
      | error e' =>
          have refused : m.refusal? (target dir i) = some e' := by rw [refusal?, loaded]
          rw [refused] at first
          exact ⟨_, _, .refused unvisited (loaded.trans (congrArg _ (Option.some.inj first)))⟩
      | ok file =>
          have fine : m.refusal? (target dir i) = none := by rw [refusal?, loaded]
          rw [fine] at first
          change (inner ++ order).findSome? m.refusal? = some e at first
          rw [List.findSome?_append] at first
          rw [itemsOf_of_load loaded] at inside ihi
          cases within : inner.findSome? m.refusal? with
          | some e' =>
              rw [within] at first
              obtain ⟨_, _, inside⟩ := ihi (normal_concat normal) (within.trans first)
              exact ⟨_, _, .stopped unvisited loaded inside⟩
          | none =>
              -- the file was gone through to its end, and the reason comes after it
              rw [within] at first
              have entered := inside.loads (normal_concat normal)
                (List.findSome?_eq_none_iff.mp within)
              obtain ⟨_, _, rest⟩ := ihr (inside.normal_entered normal) first
              exact ⟨_, _, .enter unvisited loaded entered rest⟩

/-! ### Analyses -/

/-- What the file under a path unfolds to. -/
def Unfolded (m : MemoryFiles) (p : Path) : List Path → List Declaration → Prop :=
  m.Unfolds [p] p.directory (m.itemsOf p)

/-- An analysis is of the declarations that a walk comes across, unless the walk ends early. -/
theorem map_analysis_analyzeAt (spec : Spec) (l : Loader) (p : Path) :
    (spec.analyzeAt l p).map Report.analysis =
      (let w := walk l [p] (spec.items.map fun item => (p.directory, item))
      match w.fatal with
      | some e => .error e
      | none => .ok (.ofDeclared (.of (w.declarations.flatMap Declaration.entities)))) := by
  have fed : Analyzer.empty.feed l p spec =
      (let w := walk l [p] (spec.items.map fun item => (p.directory, item))
      (⟨w.declarations.foldl Declared.declare .empty, w.visited⟩, w)) := rfl
  rw [Spec.analyzeAt, fed]
  dsimp only
  rw [Analyzer.finish, Declared.foldl_declare]
  cases (walk l [p] _).fatal <;> rfl

/-- A first file that cannot be used fails the analysis. -/
theorem analyze_of_error (h : m.load path.normalize = .error e) : m.analyze path = .error e := by
  rw [analyze, h]
  rfl

/-- The analysis of a file that can be used is that of the file with all that it includes. -/
theorem analyze_of_load {file : SourceFile} (h : m.load path.normalize = .ok file) :
    m.analyze path =
      (file.spec.analyzeAt m.loader path.normalize).map Report.analysis := by
  rw [analyze, h]
  change (do return (← file.spec.analyzeAt m.loader path.normalize).analysis) = _
  cases file.spec.analyzeAt m.loader path.normalize <;> rfl

/-- What an analysis comes to is decided by what the file unfolds to. -/
theorem analyze_of_unfolded (h : m.Unfolded path.normalize order flat) :
    m.analyze path =
      match (path.normalize :: order).findSome? m.refusal? with
      | some e => .error e
      | none => .ok (.ofDeclared (.of (flat.flatMap Declaration.entities))) := by
  have normal : ∀ p ∈ [path.normalize], p.Normal := by
    intro p hp
    exact List.mem_singleton.mp hp ▸ Path.normal_normalize _
  rw [List.findSome?_cons]
  cases loaded : m.load path.normalize with
  | error e =>
      have refused : m.refusal? path.normalize = some e := by rw [refusal?, loaded]
      rw [refused, analyze_of_error loaded]
  | ok file =>
      have fine : m.refusal? path.normalize = none := by rw [refusal?, loaded]
      rw [fine, analyze_of_load loaded, map_analysis_analyzeAt, ← itemsOf_of_load loaded]
      dsimp only
      cases first : order.findSome? m.refusal? with
      | some e =>
          obtain ⟨_, _, stopped⟩ := h.stops normal first
          rw [stopped.walk_eq.2.2]
      | none =>
          have unfolded := h.loads normal (List.findSome?_eq_none_iff.mp first)
          rw [unfolded.walk_eq.1, unfolded.walk_eq.2.2]

/-- The files that an analysis enters are distinct, and at most one of them is not in the
collection. -/
theorem entered (m : MemoryFiles) {p : Path} {file : SourceFile} (h : m.load p = .ok file) :
    (Analyzer.empty.feed m.loader p file.spec).1.visited.Nodup ∧
      (Analyzer.empty.feed m.loader p file.spec).1.visited.length ≤ m.files.length + 1 := by
  change (walk m.loader [p] _).visited.Nodup ∧ (walk m.loader [p] _).visited.length ≤ _
  constructor
  · refine (pairwise_visited_walk _ _ _ (List.pairwise_singleton _ _)).imp ?_
    intro a b apart same
    exact apart (by simp [same, Path.sameAs])
  · have fewer : m.loader.unvisited ([] ++ [p]) < m.loader.unvisited [] :=
      Loader.unvisited_lt (mem_of_load h) rfl
    have all : m.loader.unvisited [] ≤ m.files.length :=
      (List.length_filter_le _ _).trans (List.length_map Prod.fst).le
    have bound := length_visited_walk_le m.loader [p]
      (file.spec.items.map fun item => (p.directory, item))
    rw [List.nil_append] at fewer
    rw [List.length_singleton] at bound
    omega

/-- Includes are inlining: an analysis enters no file twice, and where it succeeds it comes to the
analysis of the declarations that the file unfolds to, as one specification without includes. -/
theorem analyze_inlined (m : MemoryFiles) (path : Path) :
    (∀ file, m.load path.normalize = .ok file →
      (Analyzer.empty.feed m.loader path.normalize file.spec).1.visited.Nodup ∧
      (Analyzer.empty.feed m.loader path.normalize file.spec).1.visited.length ≤
        m.files.length + 1) ∧
    (∃ order flat, m.Unfolded path.normalize order flat) ∧
    ∀ order flat, m.Unfolded path.normalize order flat →
      (path.normalize :: order).Nodup ∧
      ∀ a, m.analyze path = .ok a → Spec.analyze ⟨flat.map .declaration⟩ = .ok a := by
  refine ⟨fun file h => m.entered h, m.exists_unfolds _ _ _, fun order flat h => ⟨?_, ?_⟩⟩
  · exact h.nodup (List.nodup_singleton _)
  · intro a ha
    have alone : Spec.includes ⟨flat.map .declaration⟩ = [] := by simp [Spec.includes]
    have declared : Spec.declarations ⟨flat.map .declaration⟩ = flat := by
      simp [Spec.declarations, List.flatMap_map]
    rw [Spec.analyze_of_includes alone, declared]
    rw [analyze_of_unfolded h] at ha
    split at ha
    · cases ha
    · exact ha

/-- The first of the paths that cannot be used is refused with the error. -/
def RefusedFirst (m : MemoryFiles) (paths : List Path) (e : FatalError) : Prop :=
  ∃ before q after, paths = before ++ q :: after ∧ (∀ p ∈ before, ¬ m.Unusable p) ∧ m.Refused q e

/-- The first refusal, in terms of the paths. -/
theorem findSome?_refusal?_eq_some_iff {paths : List Path} :
    paths.findSome? m.refusal? = some e ↔ m.RefusedFirst paths e := by
  rw [List.findSome?_eq_some_iff]
  simp only [RefusedFirst, refusal?_eq_some_iff, refusal?_eq_none_iff]
  grind

/-- An analysis fails with the reason for the first path met that cannot be used. -/
theorem analyze_eq_error_iff_of_unfolded (h : m.Unfolded path.normalize order flat) :
    m.analyze path = .error e ↔ m.RefusedFirst (path.normalize :: order) e := by
  rw [← findSome?_refusal?_eq_some_iff, analyze_of_unfolded h]
  cases (path.normalize :: order).findSome? m.refusal? <;> simp

/-- The files met from a path on are those that can be reached from it. -/
theorem mem_unfolded_iff {p : Path} (h : m.Unfolded p order flat) :
    q ∈ p :: order ↔ m.Reaches p q := by
  constructor
  · intro hq
    rcases List.mem_cons.mp hq with rfl | hq
    · exact .refl
    · obtain ⟨i, hi, reached⟩ := h.reaches hq
      exact .head (mentions_iff.mpr ⟨i, hi, rfl⟩) reached
  · intro reached
    induction reached with
    | refl => exact List.mem_cons_self
    | tail _ edge ih =>
        rcases List.mem_cons.mp ih with rfl | hq
        · obtain ⟨i, hi, rfl⟩ := mentions_iff.mp edge
          exact h.target_mem hi
        · exact h.mem_of_mentions hq edge

/-- An analysis fails exactly where a file that can be reached cannot be used, and with the reason
for the first such file in depth-first order. -/
theorem analyze_fails_iff (m : MemoryFiles) (path : Path) :
    ((∃ e, m.analyze path = .error e) ↔ ∃ q, m.Reaches path.normalize q ∧ m.Unusable q) ∧
    (∃ order flat, m.Unfolded path.normalize order flat) ∧
    ∀ order flat, m.Unfolded path.normalize order flat →
      (path.normalize :: order).Nodup ∧
      (∀ q, q ∈ path.normalize :: order ↔ m.Reaches path.normalize q) ∧
      ∀ e, m.analyze path = .error e ↔ m.RefusedFirst (path.normalize :: order) e := by
  obtain ⟨order, flat, unfolded⟩ := m.exists_unfolds [path.normalize] path.normalize.directory
    (m.itemsOf path.normalize)
  refine ⟨?_, ⟨order, flat, unfolded⟩, fun order flat h => ⟨h.nodup (List.nodup_singleton _),
    fun q => mem_unfolded_iff h, fun e => analyze_eq_error_iff_of_unfolded h⟩⟩
  simp only [← mem_unfolded_iff unfolded, analyze_eq_error_iff_of_unfolded unfolded,
    ← findSome?_refusal?_eq_some_iff, Unusable, ← refusal?_eq_some_iff]
  rw [← Option.isSome_iff_exists, List.findSome?_isSome_iff]
  simp only [Option.isSome_iff_exists]

end MetaAttack.MemoryFiles
