import Mathlib.Data.List.Basic
import MetaAttack.Analysis.Walk

/-!
# Unfolding

The items of a file unfold, whatever the loader of the includes: in the place of an include stands
what the items of the named file unfold to, unless that file was visited before, and the first file
that the loader refuses ends everything. A walk comes to exactly that.

## Implementation notes

A walk goes through one list of pending items, each with its directory. `Loader.Unfolds` has a
derivation for each file instead, inside the derivation for the file that includes it, so it says
what an include stands for without speaking of the items behind it.
-/

namespace MetaAttack

section Walk

variable {l : Loader} {visited : List Path} {dir : Path} {i : Include} {e : FatalError}
variable {file : SourceFile}

/-! ### Steps of a walk -/

theorem walk_of_visited (rest : List (Path × Item))
    (met : visited.any (l.resolve dir i.path).sameAs = true) :
    walk l visited ((dir, .inclusion i) :: rest) = walk l visited rest := by
  rw [walk, dif_pos met]

theorem walk_of_error (rest : List (Path × Item))
    (new : ¬ visited.any (l.resolve dir i.path).sameAs = true)
    (refused : l.load (l.resolve dir i.path) = .error e) :
    walk l visited ((dir, .inclusion i) :: rest) =
      ⟨[], visited ++ [l.resolve dir i.path], [], some e⟩ := by
  rw [walk, dif_neg new]
  split
  · next e' h =>
    obtain rfl := Except.error.inj (refused.symm.trans h)
    rfl
  · next h => cases refused.symm.trans h

theorem walk_of_load (rest : List (Path × Item))
    (new : ¬ visited.any (l.resolve dir i.path).sameAs = true)
    (loaded : l.load (l.resolve dir i.path) = .ok file) :
    walk l visited ((dir, .inclusion i) :: rest) =
      (let w := walk l (visited ++ [l.resolve dir i.path])
        ((file.spec.items.map fun item => ((l.resolve dir i.path).directory, item)) ++ rest)
      { w with sources := (l.resolve dir i.path, file.text) :: w.sources }) := by
  rw [walk, dif_neg new]
  split
  · next h => cases loaded.symm.trans h
  · next file' h =>
    obtain rfl := Except.ok.inj (loaded.symm.trans h)
    rfl

/-- Induction along a walk. An include of a file that was visited before is passed by. Any other one
is where the walk ends, or the items of its file take its place. -/
theorem walk_induction (l : Loader) {motive : List Path → List (Path × Item) → Prop}
    (done : ∀ visited, motive visited [])
    (declaration : ∀ visited dir d rest, motive visited rest →
      motive visited ((dir, .declaration d) :: rest))
    (again : ∀ visited dir i rest, visited.any (l.resolve dir i.path).sameAs = true →
      motive visited rest → motive visited ((dir, .inclusion i) :: rest))
    (refused : ∀ visited dir i rest e, ¬ visited.any (l.resolve dir i.path).sameAs = true →
      l.load (l.resolve dir i.path) = .error e → motive visited ((dir, .inclusion i) :: rest))
    (enter : ∀ visited dir i rest file, ¬ visited.any (l.resolve dir i.path).sameAs = true →
      l.load (l.resolve dir i.path) = .ok file →
      motive (visited ++ [l.resolve dir i.path])
        ((file.spec.items.map fun item => ((l.resolve dir i.path).directory, item)) ++ rest) →
      motive visited ((dir, .inclusion i) :: rest))
    (visited : List Path) (items : List (Path × Item)) : motive visited items := by
  induction visited, items using walk.induct l with
  | case1 visited => exact done visited
  | case2 visited dir d rest ih => exact declaration visited dir d rest ih
  | case3 visited dir i rest target met ih => exact again visited dir i rest met ih
  | case4 visited dir i rest target new e failed => exact refused visited dir i rest e new failed
  | case5 visited dir i rest target new file loaded _ inner ih =>
      exact enter visited dir i rest file new loaded ih

/-- A walk visits no file twice. -/
theorem pairwise_visited_walk (l : Loader) (visited : List Path) (items : List (Path × Item))
    (distinct : visited.Pairwise fun p q => ¬ q.sameAs p = true) :
    (walk l visited items).visited.Pairwise fun p q => ¬ q.sameAs p = true := by
  have concat : ∀ {ps : List Path} {p : Path}, ps.Pairwise (fun p q => ¬ q.sameAs p = true) →
      ¬ ps.any p.sameAs = true → (ps ++ [p]).Pairwise fun p q => ¬ q.sameAs p = true := by
    intro ps p apart new
    rw [List.any_eq_true] at new
    refine List.pairwise_append.mpr ⟨apart, List.pairwise_singleton _ _, fun q hq r hr same => ?_⟩
    exact new ⟨q, hq, List.mem_singleton.mp hr ▸ same⟩
  induction visited, items using walk_induction l with
  | done visited => rwa [walk]
  | declaration visited dir d rest ih =>
      rw [walk]
      exact ih distinct
  | again visited dir i rest met ih =>
      rw [walk_of_visited rest met]
      exact ih distinct
  | refused visited dir i rest e new refused =>
      rw [walk_of_error rest new refused]
      exact concat distinct new
  | enter visited dir i rest file new loaded ih =>
      rw [walk_of_load rest new loaded]
      exact ih (concat distinct new)

/-- A walk visits at most one file that its loader does not have. -/
theorem length_visited_walk_le (l : Loader) (visited : List Path) (items : List (Path × Item)) :
    (walk l visited items).visited.length ≤ visited.length + l.unvisited visited + 1 := by
  induction visited, items using walk_induction l with
  | done visited =>
      rw [walk]
      change visited.length ≤ _
      omega
  | declaration visited dir d rest ih =>
      rw [walk]
      exact ih
  | again visited dir i rest met ih =>
      rw [walk_of_visited rest met]
      exact ih
  | refused visited dir i rest e new refused =>
      rw [walk_of_error rest new refused, List.length_append, List.length_singleton]
      omega
  | enter visited dir i rest file new loaded ih =>
      have fewer := Loader.unvisited_lt (l.load_mem _ _ _ loaded) (by simpa using new)
      rw [walk_of_load rest new loaded]
      refine Nat.le_trans ih ?_
      rw [List.length_append, List.length_singleton]
      omega

/-- The first walk declares the declarations and then goes on as the second. -/
structure Walk.Leads (w : Walk) (flat : List Declaration) (v : Walk) : Prop where
  declarations : w.declarations = flat ++ v.declarations
  visited : w.visited = v.visited
  fatal : w.fatal = v.fatal

theorem Walk.Leads.trans {u v w : Walk} {ds es : List Declaration} (h : u.Leads ds v)
    (k : v.Leads es w) : u.Leads (ds ++ es) w where
  declarations := by rw [h.declarations, k.declarations, List.append_assoc]
  visited := h.visited.trans k.visited
  fatal := h.fatal.trans k.fatal

end Walk

namespace Loader

variable {l : Loader} {seen order : List Path} {dir : Path} {items : List Item}
variable {flat : List Declaration} {fatal : Option FatalError}

/-! ### Unfolding for any loader -/

/-- With the files in `seen` visited before, the items of a file in the directory lead to the files
in `order`, visited in this order, and amount to the declarations in `flat`. A fatal error is the
reason why the last one of these files was refused; what stands behind it counts for nothing. -/
inductive Unfolds (l : Loader) : List Path → Path → List Item → List Path → List Declaration →
    Option FatalError → Prop
  | done {seen : List Path} {dir : Path} : Unfolds l seen dir [] [] [] .none
  | declaration {seen : List Path} {dir : Path} {d : Declaration} {items : List Item}
      {order : List Path} {flat : List Declaration} {fatal : Option FatalError}
      (rest : Unfolds l seen dir items order flat fatal) :
      Unfolds l seen dir (.declaration d :: items) order (d :: flat) fatal
  | again {seen : List Path} {dir : Path} {i : Include} {items : List Item} {order : List Path}
      {flat : List Declaration} {fatal : Option FatalError}
      (met : seen.any (l.resolve dir i.path).sameAs = true)
      (rest : Unfolds l seen dir items order flat fatal) :
      Unfolds l seen dir (.inclusion i :: items) order flat fatal
  | refused {seen : List Path} {dir : Path} {i : Include} {items : List Item} {e : FatalError}
      (new : ¬ seen.any (l.resolve dir i.path).sameAs = true)
      (reason : l.load (l.resolve dir i.path) = .error e) :
      Unfolds l seen dir (.inclusion i :: items) [l.resolve dir i.path] [] (some e)
  | stopped {seen : List Path} {dir : Path} {i : Include} {items : List Item} {file : SourceFile}
      {inner : List Path} {flat : List Declaration} {e : FatalError}
      (new : ¬ seen.any (l.resolve dir i.path).sameAs = true)
      (loaded : l.load (l.resolve dir i.path) = .ok file)
      (inside : Unfolds l (seen ++ [l.resolve dir i.path]) (l.resolve dir i.path).directory
        file.spec.items inner flat (some e)) :
      Unfolds l seen dir (.inclusion i :: items) (l.resolve dir i.path :: inner) flat (some e)
  | enter {seen : List Path} {dir : Path} {i : Include} {items : List Item} {file : SourceFile}
      {inner order : List Path} {innerFlat flat : List Declaration} {fatal : Option FatalError}
      (new : ¬ seen.any (l.resolve dir i.path).sameAs = true)
      (loaded : l.load (l.resolve dir i.path) = .ok file)
      (inside : Unfolds l (seen ++ [l.resolve dir i.path]) (l.resolve dir i.path).directory
        file.spec.items inner innerFlat .none)
      (rest : Unfolds l (seen ++ l.resolve dir i.path :: inner) dir items order flat fatal) :
      Unfolds l seen dir (.inclusion i :: items) (l.resolve dir i.path :: inner ++ order)
        (innerFlat ++ flat) fatal

/-- How a walk goes on behind items that have unfolded: a fatal error ends it. -/
def onward (l : Loader) (visited : List Path) (rest : List (Path × Item)) :
    Option FatalError → Walk
  | some e => ⟨[], visited, [], some e⟩
  | .none => walk l visited rest

/-- A walk declares what the items in front unfold to, and then goes on behind them. -/
theorem Unfolds.leads (h : l.Unfolds seen dir items order flat fatal)
    (rest : List (Path × Item)) :
    (walk l seen ((items.map fun item => (dir, item)) ++ rest)).Leads flat
      (l.onward (seen ++ order) rest fatal) := by
  induction h generalizing rest with
  | done =>
      rw [List.append_nil]
      exact ⟨rfl, rfl, rfl⟩
  | declaration _ ih =>
      have next := ih rest
      rw [List.map_cons, List.cons_append, walk]
      exact ⟨congrArg _ next.declarations, next.visited, next.fatal⟩
  | again met _ ih =>
      rw [List.map_cons, List.cons_append, walk_of_visited _ met]
      exact ih rest
  | refused new reason =>
      rw [List.map_cons, List.cons_append, walk_of_error _ new reason]
      exact ⟨rfl, rfl, rfl⟩
  | @stopped seen dir i items file inner flat e new loaded _ ih =>
      have entered := ih ((items.map fun item => (dir, item)) ++ rest)
      rw [← List.append_cons] at entered
      rw [List.map_cons, List.cons_append, walk_of_load _ new loaded]
      exact ⟨entered.declarations, entered.visited, entered.fatal⟩
  | @enter seen dir i items file inner order innerFlat flat fatal new loaded _ _ ihi ihr =>
      -- the items of the file come first, then those that stood behind the include
      have entered := ihi ((items.map fun item => (dir, item)) ++ rest)
      rw [← List.append_cons] at entered
      have left := ihr rest
      rw [List.append_assoc, List.cons_append] at left
      have both := entered.trans left
      rw [List.map_cons, List.cons_append, walk_of_load _ new loaded]
      exact ⟨both.declarations, both.visited, both.fatal⟩

/-- What items unfold to is what a walk through them comes to. -/
theorem Unfolds.walk_eq (h : l.Unfolds seen dir items order flat fatal) :
    (walk l seen (items.map fun item => (dir, item))).declarations = flat ∧
      (walk l seen (items.map fun item => (dir, item))).visited = seen ++ order ∧
      (walk l seen (items.map fun item => (dir, item))).fatal = fatal := by
  have led := h.leads []
  rw [List.append_nil] at led
  cases fatal with
  | some e => exact ⟨led.declarations.trans (List.append_nil _), led.visited, led.fatal⟩
  | none =>
      change Walk.Leads _ flat (walk l (seen ++ order) []) at led
      rw [walk] at led
      exact ⟨led.declarations.trans (List.append_nil _), led.visited, led.fatal⟩

theorem unvisited_append_le (l : Loader) (seen more : List Path) :
    l.unvisited (seen ++ more) ≤ l.unvisited seen := by
  refine (List.monotone_filter_right l.files fun p hp => ?_).length_le
  rw [Bool.not_eq_true', List.any_append, Bool.or_eq_false_iff] at hp
  rw [hp.1, Bool.not_false]

/-- All items unfold. Whenever a file is entered, fewer files are unvisited. -/
theorem exists_unfolds (l : Loader) (seen : List Path) (dir : Path) (items : List Item) :
    ∃ order flat fatal, l.Unfolds seen dir items order flat fatal := by
  match items with
  | [] => exact ⟨_, _, _, .done⟩
  | .declaration d :: items =>
      obtain ⟨order, flat, fatal, rest⟩ := exists_unfolds l seen dir items
      exact ⟨_, _, _, .declaration rest⟩
  | .inclusion i :: items =>
      by_cases met : seen.any (l.resolve dir i.path).sameAs = true
      · obtain ⟨order, flat, fatal, rest⟩ := exists_unfolds l seen dir items
        exact ⟨_, _, _, .again met rest⟩
      · cases loaded : l.load (l.resolve dir i.path) with
        | error e => exact ⟨_, _, _, .refused met loaded⟩
        | ok file =>
            have entered := Loader.unvisited_lt (l.load_mem _ _ _ loaded) (by simpa using met)
            obtain ⟨inner, innerFlat, fatal, inside⟩ := exists_unfolds l
              (seen ++ [l.resolve dir i.path]) (l.resolve dir i.path).directory file.spec.items
            cases fatal with
            | some e => exact ⟨_, _, _, .stopped met loaded inside⟩
            | none =>
                have left : l.unvisited (seen ++ l.resolve dir i.path :: inner) ≤ _ :=
                  List.append_cons seen _ inner ▸ l.unvisited_append_le (seen ++ [_]) inner
                obtain ⟨order, flat, fatal, rest⟩ :=
                  exists_unfolds l (seen ++ l.resolve dir i.path :: inner) dir items
                exact ⟨_, _, _, .enter met loaded inside rest⟩
termination_by (l.unvisited seen, items.length)
decreasing_by
  · exact Prod.Lex.right _ (Nat.lt_succ_self _)
  · exact Prod.Lex.right _ (Nat.lt_succ_self _)
  · exact Prod.Lex.left _ _ entered
  · exact Prod.Lex.left _ _ (Nat.lt_of_le_of_lt left entered)

/-- A walk through items comes to what they unfold to, and to nothing else. -/
theorem unfolds_iff : l.Unfolds seen dir items order flat fatal ↔
    (walk l seen (items.map fun item => (dir, item))).declarations = flat ∧
      (walk l seen (items.map fun item => (dir, item))).visited = seen ++ order ∧
      (walk l seen (items.map fun item => (dir, item))).fatal = fatal := by
  refine ⟨Unfolds.walk_eq, fun ⟨declarations, visited, stopped⟩ => ?_⟩
  obtain ⟨order', flat', fatal', h⟩ := l.exists_unfolds seen dir items
  obtain ⟨declarations', visited', stopped'⟩ := h.walk_eq
  obtain rfl : order' = order := List.append_cancel_left (visited'.symm.trans visited)
  obtain rfl : flat' = flat := declarations'.symm.trans declarations
  obtain rfl : fatal' = fatal := stopped'.symm.trans stopped
  exact h

end Loader

end MetaAttack
