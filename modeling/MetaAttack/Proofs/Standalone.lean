import MetaAttack.Proofs.Inlining

/-!
# Specifications on their own

A specification that is analyzed on its own has no other files. Its first include is refused, unless
its path is empty: the specification itself stands at the empty path, so such an include is taken
for one of a file that was visited before.
-/

namespace MetaAttack

/-! ### The empty path -/

namespace Path

theorem cut_ne_nil (cs : List Char) : cut cs ≠ [] := by
  cases cs with
  | nil => simp [cut]
  | cons c r =>
      rw [cut]
      split
      · simp
      · split <;> simp

/-- A text that does not start with a slash has a first segment that is not empty. -/
theorem segmentsOf_cons {c : Char} {cs : List Char} (h : c ≠ '/') :
    ∃ s ss, segmentsOf (c :: cs) = s :: ss ∧ s ≠ "" := by
  obtain ⟨d, ds, hd⟩ := List.exists_cons_of_ne_nil (cut_ne_nil cs)
  refine ⟨String.ofList (c :: d), ds.map String.ofList, ?_, ?_⟩
  · simp [segmentsOf, cut, h, hd]
  · intro blank
    have := congrArg String.toList blank
    simp at this

/-- Only the empty text has no component. -/
theorem components_ofText_eq_nil_iff {s : String} : (ofText s).components = [] ↔ s = "" := by
  constructor
  · intro none
    rw [ofText] at none
    split at none
    · simp [components] at none
    · next noRoot =>
      cases hs : s.toList with
      | nil => exact String.toList_eq_nil_iff.mp hs
      | cons c cs =>
          have relative : c ≠ '/' := fun slash => noRoot cs (slash ▸ hs)
          obtain ⟨first, rest, segments, proper⟩ := segmentsOf_cons relative
          rw [hs, segments, components, if_neg Bool.false_ne_true] at none
          split at none
          · cases none
          · next noDot =>
            have unread := List.filterMap_eq_nil_iff.mp none first List.mem_cons_self
            rw [Component.ofSegment?] at unread
            split at unread
            · next blank =>
                exact absurd (blank.resolve_left proper) fun dot => noDot rest (dot ▸ rfl)
            · split at unread <;> cases unread
  · rintro rfl
    rfl

@[simp] theorem empty_join (p : Path) : empty.join p = p := by
  unfold join
  split <;> rfl

/-- Among the visited paths, where the empty one is the only one, is no other. -/
theorem any_sameAs_empty_iff {s : String} :
    [empty].any (ofText s).sameAs = true ↔ s = "" := by
  rw [List.any_cons, List.any_nil, Bool.or_false, sameAs, decide_eq_true_iff]
  exact components_ofText_eq_nil_iff

end Path

/-! ### Refused includes -/

namespace Spec

variable {s : Spec} {items : List Item} {e : FatalError}

/-- The error for an include of a specification that is analyzed on its own. -/
def refusal? (i : Include) : Option FatalError :=
  if i.path = "" then none else some (.includeUnsupported (.ofText i.path))

theorem refusal?_eq_some_iff {i : Include} :
    refusal? i = some e ↔ i.path ≠ "" ∧ e = .includeUnsupported (.ofText i.path) := by
  rw [refusal?]
  split
  · next blank => simp [blank]
  · next named => simp [named, eq_comm]

theorem refusal?_eq_none_iff {i : Include} : refusal? i = none ↔ i.path = "" := by
  rw [refusal?]
  split <;> simp [*]

/-- An include is taken for one of the specification itself where its path is empty. -/
theorem visited_none_iff {i : Include} :
    [Path.empty].any (Loader.none.resolve .empty i.path).sameAs = true ↔ i.path = "" := by
  change [Path.empty].any (Path.empty.join (.ofText i.path)).sameAs = true ↔ _
  rw [Path.empty_join]
  exact Path.any_sameAs_empty_iff

/-- A walk without other files ends at the first include that is refused. -/
theorem fatal_walk_none (items : List Item) :
    (walk .none [.empty] (items.map fun item => (.empty, item))).fatal =
      (includes ⟨items⟩).findSome? refusal? := by
  induction items with
  | nil => rw [List.map_nil, walk]; rfl
  | cons item items ih =>
      cases item with
      | declaration d =>
          rw [List.map_cons, walk]
          exact ih
      | inclusion i =>
          have named : Loader.none.resolve .empty i.path = .ofText i.path := Path.empty_join _
          have first : includes ⟨.inclusion i :: items⟩ = i :: includes ⟨items⟩ := rfl
          rw [List.map_cons, first, List.findSome?_cons]
          by_cases blank : i.path = ""
          · rw [walk_of_visited _ (visited_none_iff.mpr blank), refusal?_eq_none_iff.mpr blank]
            exact ih
          · rw [walk_of_error _ (mt visited_none_iff.mp blank) rfl, named,
              refusal?_eq_some_iff.mpr ⟨blank, rfl⟩]

/-- Where no include is refused, a walk without other files comes across the declarations of the
specification itself. -/
theorem declarations_walk_none (blank : ∀ i ∈ includes ⟨items⟩, i.path = "") :
    (walk .none [.empty] (items.map fun item => (.empty, item))).declarations =
      declarations ⟨items⟩ := by
  induction items with
  | nil => rw [List.map_nil, walk]; rfl
  | cons item items ih =>
      cases item with
      | declaration d =>
          rw [List.map_cons, walk]
          exact congrArg (d :: ·) (ih blank)
      | inclusion i =>
          have here : i.path = "" := blank i List.mem_cons_self
          rw [List.map_cons, walk_of_visited _ (visited_none_iff.mpr here)]
          exact ih fun j hj => blank j (List.mem_cons_of_mem _ hj)

theorem analyze_eq_error_iff :
    s.analyze = .error e ↔ s.includes.findSome? refusal? = some e := by
  have dir : Path.empty.directory = .empty := rfl
  rw [analyze, MemoryFiles.map_analysis_analyzeAt, dir]
  dsimp only
  rw [fatal_walk_none]
  cases s.includes.findSome? refusal? <;> simp

theorem analyze_eq_ok (blank : ∀ i ∈ s.includes, i.path = "") :
    s.analyze = .ok (.ofDeclared (.of (s.declarations.flatMap Declaration.entities))) := by
  have dir : Path.empty.directory = .empty := rfl
  have fine : s.includes.findSome? refusal? = none :=
    List.findSome?_eq_none_iff.mpr fun i hi => refusal?_eq_none_iff.mpr (blank i hi)
  rw [analyze, MemoryFiles.map_analysis_analyzeAt, dir]
  dsimp only
  rw [fatal_walk_none, fine, declarations_walk_none blank]

/-- What is analyzed on its own has no include but those that count for nothing. -/
theorem analyze_of_ok {a : Analysis} (h : s.analyze = .ok a) :
    (∀ i ∈ s.includes, i.path = "") ∧
      a = .ofDeclared (.of (s.declarations.flatMap Declaration.entities)) := by
  have blank : ∀ i ∈ s.includes, i.path = "" := by
    intro i hi
    by_contra named
    have refused : s.includes.findSome? refusal? ≠ none := fun none =>
      named (refusal?_eq_none_iff.mp (List.findSome?_eq_none_iff.mp none i hi))
    obtain ⟨e, he⟩ := Option.ne_none_iff_exists'.mp refused
    cases h.symm.trans (analyze_eq_error_iff.mpr he)
  exact ⟨blank, Except.ok.inj (h.symm.trans (analyze_eq_ok blank))⟩

/-- A specification on its own is refused exactly where it has an include with a path that is not
empty, and for the first such include; otherwise the analysis is of what it declares itself. An
include with an empty path counts for nothing. -/
theorem analyze_refuses_iff (s : Spec) :
    ((∃ a, s.analyze = .ok a) ↔ ∀ i ∈ s.includes, i.path = "") ∧
    (∀ a, s.analyze = .ok a →
      a = .ofDeclared (.of (s.declarations.flatMap Declaration.entities))) ∧
    ∀ e, s.analyze = .error e ↔
      ∃ before i after, s.includes = before ++ i :: after ∧ (∀ j ∈ before, j.path = "") ∧
        i.path ≠ "" ∧ e = .includeUnsupported (.ofText i.path) := by
  refine ⟨⟨fun ⟨a, ok⟩ => (analyze_of_ok ok).1, fun blank => ⟨_, analyze_eq_ok blank⟩⟩,
    fun a ok => (analyze_of_ok ok).2, fun e => ?_⟩
  rw [analyze_eq_error_iff, List.findSome?_eq_some_iff]
  simp only [refusal?_eq_some_iff, refusal?_eq_none_iff]
  grind

/-- A specification of one include with an empty path is analyzed as if it were empty. -/
theorem analyze_emptyInclude :
    includes ⟨[.inclusion ⟨"", ⟨0, 10, 1⟩⟩]⟩ ≠ [] ∧
      ∃ a, analyze ⟨[.inclusion ⟨"", ⟨0, 10, 1⟩⟩]⟩ = .ok a :=
  ⟨by simp [includes], _, analyze_eq_ok (by simp [includes])⟩

end Spec

end MetaAttack
