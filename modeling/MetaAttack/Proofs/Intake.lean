import MetaAttack.Analysis.Analyzer
import MetaAttack.Proofs.Entities
import MetaAttack.Proofs.Unfolding

/-!
# Intake

An analyzer is handed files one after another, each with a loader for what it includes. What it has
declared in the end is what the declarations met on the way declare, in the order in which they were
met, also where some file led to a fatal error. What is met is what the files unfold to, so it is
fixed by the files and their loaders alone.
-/

namespace MetaAttack

/-- A file that is handed to an analyzer. -/
structure Feed where
  loader : Loader
  path : Path
  spec : Spec

namespace Analyzer

/-- Takes in files in order. -/
def run (a : Analyzer) : List Feed → Analyzer
  | [] => a
  | f :: fs => (a.feed f.loader f.path f.spec).1.run fs

/-- The declarations that are met when files are taken in. -/
def taken (a : Analyzer) : List Feed → List Declaration
  | [] => []
  | f :: fs =>
      (a.feed f.loader f.path f.spec).2.declarations ++ (a.feed f.loader f.path f.spec).1.taken fs

variable {a : Analyzer} {f : Feed} {fs : List Feed} {order : List Path} {flat : List Declaration}

/-- Taking in a file declares what its walk has come across. -/
theorem declared_feed (a : Analyzer) (l : Loader) (path : Path) (spec : Spec) :
    (a.feed l path spec).1.declared =
      (a.feed l path spec).2.declarations.foldl Declared.declare a.declared := by
  rw [feed]
  split <;> rfl

/-- A run declares what it meets. -/
theorem declared_run (a : Analyzer) (fs : List Feed) :
    (a.run fs).declared = (a.taken fs).foldl Declared.declare a.declared := by
  induction fs generalizing a with
  | nil => rfl
  | cons f fs ih => rw [run, ih, declared_feed, taken, List.foldl_append]

/-- The entities that are met when files are taken in. -/
def entities (a : Analyzer) (fs : List Feed) : List Entity :=
  (a.taken fs).flatMap Declaration.entities

/-- What a run declares is what the entities it has met make when entered into nothing. -/
theorem declared_run_empty (fs : List Feed) :
    (empty.run fs).declared = .of (empty.entities fs) := by
  rw [declared_run, Declared.foldl_declare]
  rfl

/-- The entities decide what an analyzer reports in the end. -/
theorem finish_run (fs : List Feed) :
    (empty.run fs).finish = .ofDeclared (.of (empty.entities fs)) := by
  rw [finish, declared_run_empty]

/-! ### What is met -/

/-- A file that was visited before is not looked at. -/
theorem feed_of_visited (met : a.visited.any f.path.sameAs = true) :
    a.feed f.loader f.path f.spec = (a, ⟨[], a.visited, [], none⟩) := by
  rw [feed, if_pos met]

theorem feed_of_new (new : ¬ a.visited.any f.path.sameAs = true) :
    a.feed f.loader f.path f.spec =
      (let w := walk f.loader (a.visited ++ [f.path])
        (f.spec.items.map fun item => (f.path.directory, item))
      (⟨w.declarations.foldl Declared.declare a.declared, w.visited⟩, w)) := by
  rw [feed, if_neg new]

/-- With the files in `visited` visited before, the files that are handed over lead to the files in
`order`, visited in this order, and amount to the declarations in `flat`. One that was visited
before is passed by. A fatal error ends what its file unfolds to, and not what comes after it. -/
inductive Unfolds : List Path → List Feed → List Path → List Declaration → Prop
  | done {visited : List Path} : Unfolds visited [] [] []
  | again {visited order : List Path} {f : Feed} {fs : List Feed} {flat : List Declaration}
      (met : visited.any f.path.sameAs = true) (rest : Unfolds visited fs order flat) :
      Unfolds visited (f :: fs) order flat
  | enter {visited inner order : List Path} {f : Feed} {fs : List Feed}
      {innerFlat flat : List Declaration} {fatal : Option FatalError}
      (new : ¬ visited.any f.path.sameAs = true)
      (inside : f.loader.Unfolds (visited ++ [f.path]) f.path.directory f.spec.items inner
        innerFlat fatal)
      (rest : Unfolds (visited ++ f.path :: inner) fs order flat) :
      Unfolds visited (f :: fs) (f.path :: inner ++ order) (innerFlat ++ flat)

/-- All files unfold, whatever their loaders refuse. -/
theorem exists_unfolds (visited : List Path) (fs : List Feed) :
    ∃ order flat, Unfolds visited fs order flat := by
  induction fs generalizing visited with
  | nil => exact ⟨_, _, .done⟩
  | cons f fs ih =>
      by_cases met : visited.any f.path.sameAs = true
      · obtain ⟨order, flat, rest⟩ := ih visited
        exact ⟨_, _, .again met rest⟩
      · obtain ⟨inner, innerFlat, fatal, inside⟩ :=
          f.loader.exists_unfolds (visited ++ [f.path]) f.path.directory f.spec.items
        obtain ⟨order, flat, rest⟩ := ih (visited ++ f.path :: inner)
        exact ⟨_, _, .enter met inside rest⟩

/-- By induction on the files: the next one is handed to an analyzer that has visited what the ones
before it have led to. -/
theorem Unfolds.run_eq (h : Unfolds a.visited fs order flat) :
    a.taken fs = flat ∧ (a.run fs).visited = a.visited ++ order := by
  induction fs generalizing a order flat with
  | nil =>
      cases h
      exact ⟨rfl, (List.append_nil _).symm⟩
  | cons f fs ih =>
      rw [taken, run]
      cases h with
      | again met rest =>
          rw [feed_of_visited met]
          exact ih rest
      | @enter _ inner order _ _ innerFlat flat fatal new inside rest =>
          obtain ⟨declarations, visited, -⟩ := inside.walk_eq
          rw [List.append_assoc, List.singleton_append] at visited
          rw [feed_of_new new]
          dsimp only
          rw [declarations, visited]
          obtain ⟨later, left⟩ :=
            @ih ⟨innerFlat.foldl Declared.declare a.declared, a.visited ++ f.path :: inner⟩ _ _ rest
          exact ⟨congrArg _ later, left.trans (List.append_assoc _ _ _)⟩

/-- What a run meets is what the files handed over unfold to, each with its own loader. -/
theorem unfolds_iff : Unfolds a.visited fs order flat ↔
    a.taken fs = flat ∧ (a.run fs).visited = a.visited ++ order := by
  refine ⟨Unfolds.run_eq, fun ⟨declarations, visited⟩ => ?_⟩
  obtain ⟨order', flat', h⟩ := exists_unfolds a.visited fs
  obtain ⟨declarations', visited'⟩ := h.run_eq
  obtain rfl : flat' = flat := declarations'.symm.trans declarations
  obtain rfl : order' = order := List.append_cancel_left (visited'.symm.trans visited)
  exact h

/-- The entities that are met are those of the declarations that the files unfold to. -/
theorem entities_eq_iff {es : List Entity} : empty.entities fs = es ↔
    ∃ order flat, Unfolds [] fs order flat ∧ flat.flatMap Declaration.entities = es := by
  obtain ⟨order, flat, h⟩ := exists_unfolds [] fs
  constructor
  · rintro rfl
    exact ⟨order, flat, h, congrArg _ (h.run_eq (a := empty)).1.symm⟩
  · rintro ⟨order', flat', h', rfl⟩
    exact congrArg _ (h'.run_eq (a := empty)).1

end Analyzer

/-! ### What was entered is fresh -/

/-- Neither the variables nor the steps of the asset have results. -/
structure AssetEntry.Unresolved (a : AssetEntry) : Prop where
  target : ∀ v ∈ a.bindings.entries, v.target = none
  required : ∀ s ∈ a.steps.entries, s.required = []
  reached : ∀ s ∈ a.steps.entries, s.reached = []

/-- Nothing has come of the asset yet. -/
structure AssetEntry.Fresh (a : AssetEntry) : Prop extends a.Unresolved where
  fields : a.fields = .empty

/-- An entry that was just made has no results. -/
theorem AssetEntry.fresh_ofAsset (category : String) (a : Asset) :
    (AssetEntry.ofAsset category a).Fresh where
  fields := rfl
  target := by
    intro v hv
    obtain ⟨w, _, rfl⟩ := List.mem_map.mp (Table.mem_of_mem_empty_insertAll hv)
    rfl
  required := by
    intro s hs
    obtain ⟨t, _, rfl⟩ := List.mem_map.mp (Table.mem_of_mem_empty_insertAll hs)
    rfl
  reached := by
    intro s hs
    obtain ⟨t, _, rfl⟩ := List.mem_map.mp (Table.mem_of_mem_empty_insertAll hs)
    rfl

/-- The assets of a registry into which entities were entered are fresh. -/
theorem Declared.fresh_of_mem {es : List Entity} {a : AssetEntry}
    (h : a ∈ (of es).registry.assets.entries) : a.Fresh := by
  rw [of, assets_foldl_enter] at h
  obtain ⟨x, _, rfl⟩ := List.mem_map.mp (Table.mem_of_mem_empty_insertAll h)
  exact AssetEntry.fresh_ofAsset x.1 x.2

end MetaAttack
