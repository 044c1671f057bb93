import Mathlib.Data.Finset.Card
import Mathlib.Logic.Relation
import MetaAttack.Files.Memory

/-!
# What a file includes

In a collection of files, a file mentions another one where it has an include for it. `Unfolds` puts
in the place of each include what the named file declares, unless that file was met before. The
files are met in depth-first order, each at most once, and those that are met are those that can be
reached. A file that is missing or cannot be parsed is met as well, as one without items.

## Implementation notes

`Unfolds` is about the items of one file at a time. The paths met before are on the left, in the
order in which they were met; the newly met ones come out on the right.
-/

namespace MetaAttack.MemoryFiles

open Relation

variable {m : MemoryFiles} {p q r dir : Path} {seen order : List Path} {items : List Item}
variable {flat : List Declaration} {e : FatalError}

/-! ### Files -/

/-- The source under a path. -/
def text? (m : MemoryFiles) (p : Path) : Option String :=
  (m.files.find? fun f => f.1 = p).map Prod.snd

/-- Replacing the text of one path leaves the others. -/
theorem find?_replace_of_ne (fs : List (Path × String)) (source : String) (other : p ≠ q) :
    ((fs.map fun f => if f.1 = p then (p, source) else f).find? fun f => f.1 = q) =
      fs.find? fun f => f.1 = q := by
  induction fs with
  | nil => rfl
  | cons f fs ih =>
      rw [List.map_cons, List.find?_cons, List.find?_cons, ih]
      by_cases same : f.1 = p
      · simp [same, other]
      · simp [same]

/-- Replacing the text of a path that is there gives the path the new text. -/
theorem find?_replace_self {fs : List (Path × String)} (source : String)
    (present : (fs.any fun f => f.1 = p) = true) :
    ((fs.map fun f => if f.1 = p then (p, source) else f).find? fun f => f.1 = p) =
      some (p, source) := by
  induction fs with
  | nil => cases present
  | cons f fs ih =>
      rw [List.map_cons, List.find?_cons]
      by_cases same : f.1 = p
      · simp [same]
      · simp only [List.any_cons, same, decide_false, Bool.false_or] at present
        simp [same, ih present]

/-- Adding a source changes what is under its path only. -/
theorem text?_insert (m : MemoryFiles) (p q : Path) (source : String) :
    (m.insert p source).text? q = if p.normalize = q then some source else m.text? q := by
  unfold text? insert
  by_cases present : (m.files.any fun f => f.1 = p.normalize) = true
  · rw [if_pos present]
    split
    · next same => rw [← same, find?_replace_self source present, Option.map_some]
    · next other => rw [find?_replace_of_ne _ source other]
  · rw [if_neg present, List.find?_append]
    split
    · next same =>
      have absent : (m.files.find? fun f => f.1 = q) = none := by
        rw [List.find?_eq_none]
        intro f hf found
        exact present (List.any_eq_true.mpr ⟨f, hf, same ▸ found⟩)
      simp [absent, same]
    · next other => simp [other]

/-- The path holds the specification. -/
def Holds (m : MemoryFiles) (p : Path) (spec : Spec) : Prop :=
  ∃ text, m.text? p = some text ∧ Spec.ofSource text = .ok spec

/-- The path cannot be used, for the given reason: nothing is there, or no specification. -/
inductive Refused (m : MemoryFiles) (p : Path) : FatalError → Prop
  | missing (h : m.text? p = none) : Refused m p (.unreadable p .notInCollection)
  | invalid {text : String} {e : ParseError} (h : m.text? p = some text)
      (he : Spec.ofSource text = .error e) : Refused m p (.unparsable p e)

/-- The path cannot be used, for some reason. -/
def Unusable (m : MemoryFiles) (p : Path) : Prop := ∃ e, m.Refused p e

/-- Loading fails with the reason why a path cannot be used. -/
theorem load_eq_error_iff : m.load p = .error e ↔ m.Refused p e := by
  constructor
  · intro h
    unfold load at h
    split at h
    · next none =>
      cases h
      exact .missing (by rw [text?, none, Option.map_none])
    · next q text found =>
      have at_p : m.text? p = some text := by rw [text?, found, Option.map_some]
      split at h
      · next e he =>
        cases h
        exact .invalid at_p he
      · cases h
  · rintro (h | ⟨h, he⟩)
    · have absent : (m.files.find? fun f => f.1 = p) = none := Option.map_eq_none_iff.mp h
      rw [load, absent]
    · obtain ⟨⟨q, text⟩, found, rfl⟩ := Option.map_eq_some_iff.mp h
      rw [load, found]
      simp only [he]

/-- Loading succeeds with what the path holds, if that parses. -/
theorem load_eq_ok_iff {file : SourceFile} :
    m.load p = .ok file ↔ m.text? p = some file.text ∧ Spec.ofSource file.text = .ok file.spec := by
  constructor
  · intro h
    unfold load at h
    split at h
    · cases h
    · next q text found =>
      split at h
      · cases h
      · next spec hs =>
        cases h
        exact ⟨by rw [text?, found, Option.map_some], hs⟩
  · rintro ⟨h, hs⟩
    obtain ⟨⟨q, text⟩, found, same⟩ := Option.map_eq_some_iff.mp h
    obtain rfl : text = file.text := same
    rw [load, found]
    simp only [hs]

/-- The items of the file under a path; an unusable one has none. -/
def itemsOf (m : MemoryFiles) (p : Path) : List Item :=
  match m.load p with
  | .ok file => file.spec.items
  | .error _ => []

theorem itemsOf_of_load {file : SourceFile} (h : m.load p = .ok file) :
    m.itemsOf p = file.spec.items := by
  rw [itemsOf, h]

theorem itemsOf_of_error (h : m.load p = .error e) : m.itemsOf p = [] := by
  rw [itemsOf, h]

/-! ### Mentioning -/

/-- The path that an include in a file of the directory names. -/
def target (dir : Path) (i : Include) : Path := (dir.join (.ofText i.path)).normalize

/-- The file under the first path has an include that names the second. -/
def Mentions (m : MemoryFiles) (p q : Path) : Prop :=
  ∃ spec, m.Holds p spec ∧ ∃ i, .inclusion i ∈ spec.items ∧ target p.directory i = q

/-- A path mentions those that the includes among its items name. -/
theorem mentions_iff :
    m.Mentions p q ↔ ∃ i, .inclusion i ∈ m.itemsOf p ∧ target p.directory i = q := by
  constructor
  · rintro ⟨spec, ⟨text, h, hs⟩, i, hi, named⟩
    have loaded : m.load p = .ok ⟨text, spec⟩ := load_eq_ok_iff.mpr ⟨h, hs⟩
    exact ⟨i, itemsOf_of_load loaded ▸ hi, named⟩
  · rintro ⟨i, hi, named⟩
    cases loaded : m.load p with
    | error e =>
        rw [itemsOf_of_error loaded] at hi
        cases hi
    | ok file =>
        rw [itemsOf_of_load loaded] at hi
        exact ⟨file.spec, ⟨file.text, load_eq_ok_iff.mp loaded⟩, i, hi, named⟩

/-- What following includes leads to. -/
def Reaches (m : MemoryFiles) : Path → Path → Prop := ReflTransGen m.Mentions

/-! ### Unfolding -/

/-- With the files in `seen` met before, the items of a file in the directory lead to the files in
`order`, met in this order, and amount to the declarations in `flat`. -/
inductive Unfolds (m : MemoryFiles) :
    List Path → Path → List Item → List Path → List Declaration → Prop
  | done {seen : List Path} {dir : Path} : Unfolds m seen dir [] [] []
  | declaration {seen : List Path} {dir : Path} {d : Declaration} {items : List Item}
      {order : List Path} {flat : List Declaration} (rest : Unfolds m seen dir items order flat) :
      Unfolds m seen dir (.declaration d :: items) order (d :: flat)
  | again {seen : List Path} {dir : Path} {i : Include} {items : List Item} {order : List Path}
      {flat : List Declaration} (met : target dir i ∈ seen)
      (rest : Unfolds m seen dir items order flat) :
      Unfolds m seen dir (.inclusion i :: items) order flat
  | enter {seen : List Path} {dir : Path} {i : Include} {items : List Item}
      {inner order : List Path} {innerFlat flat : List Declaration} (new : target dir i ∉ seen)
      (inside : Unfolds m (seen ++ [target dir i]) (target dir i).directory
        (m.itemsOf (target dir i)) inner innerFlat)
      (rest : Unfolds m (seen ++ target dir i :: inner) dir items order flat) :
      Unfolds m seen dir (.inclusion i :: items) (target dir i :: inner ++ order)
        (innerFlat ++ flat)

namespace Unfolds

/-- Every file is met once. -/
theorem nodup (h : m.Unfolds seen dir items order flat) (distinct : seen.Nodup) :
    (seen ++ order).Nodup := by
  induction h with
  | done => rwa [List.append_nil]
  | declaration _ ih => exact ih distinct
  | again _ _ ih => exact ih distinct
  | @enter seen dir i _ inner order _ _ new _ _ ihi ihr =>
      have here : (seen ++ [target dir i]).Nodup := by
        rw [List.nodup_append]
        exact ⟨distinct, List.nodup_singleton _, fun a ha b hb =>
          List.mem_singleton.mp hb ▸ fun same => new (same ▸ ha)⟩
      have inside : (seen ++ target dir i :: inner).Nodup := by
        rw [List.append_cons]
        exact ihi here
      have all := ihr inside
      rwa [List.append_assoc, List.cons_append] at all

/-- What is met can be reached by an include among the items. -/
theorem reaches (h : m.Unfolds seen dir items order flat) (hq : q ∈ order) :
    ∃ i, .inclusion i ∈ items ∧ m.Reaches (target dir i) q := by
  induction h with
  | done => cases hq
  | declaration _ ih | again _ _ ih =>
      obtain ⟨i, hi, reached⟩ := ih hq
      exact ⟨i, List.mem_cons_of_mem _ hi, reached⟩
  | @enter seen dir i _ inner order _ _ _ _ _ ihi ihr =>
      rw [List.cons_append, List.mem_cons, List.mem_append] at hq
      rcases hq with rfl | hq | hq
      · exact ⟨i, List.mem_cons_self, .refl⟩
      · obtain ⟨j, hj, reached⟩ := ihi hq
        exact ⟨i, List.mem_cons_self, .head (mentions_iff.mpr ⟨j, hj, rfl⟩) reached⟩
      · obtain ⟨j, hj, reached⟩ := ihr hq
        exact ⟨j, List.mem_cons_of_mem _ hj, reached⟩

/-- What the items include was met before or is met. -/
theorem target_mem (h : m.Unfolds seen dir items order flat) {i : Include}
    (hi : .inclusion i ∈ items) : target dir i ∈ seen ++ order := by
  induction h with
  | done => cases hi
  | declaration _ ih => exact ih (List.mem_of_ne_of_mem Item.noConfusion hi)
  | again met _ ih =>
      cases hi with
      | head => exact List.mem_append_left _ met
      | tail _ hi => exact ih hi
  | enter _ _ _ _ ihr =>
      cases hi with
      | head => simp
      | tail _ hi => simpa using ihr hi

/-- What a file that is met mentions was met before or is met. -/
theorem mem_of_mentions (h : m.Unfolds seen dir items order flat) (hq : q ∈ order)
    (edge : m.Mentions q r) : r ∈ seen ++ order := by
  induction h with
  | done => cases hq
  | declaration _ ih => exact ih hq
  | again _ _ ih => exact ih hq
  | @enter seen dir i _ inner order _ _ _ inside _ ihi ihr =>
      have widen : r ∈ seen ++ [target dir i] ++ inner →
          r ∈ seen ++ (target dir i :: inner ++ order) := by
        simp only [List.mem_append, List.mem_cons, List.not_mem_nil, or_false]
        tauto
      rw [List.cons_append, List.mem_cons, List.mem_append] at hq
      rcases hq with rfl | hq | hq
      · obtain ⟨j, hj, rfl⟩ := mentions_iff.mp edge
        exact widen (inside.target_mem hj)
      · exact widen (ihi hq)
      · simpa using ihr hq

end Unfolds

/-- The paths of the files that were not met yet. -/
private def unmet (m : MemoryFiles) (seen : List Path) : Finset Path :=
  (m.files.map Prod.fst).toFinset \ seen.toFinset

/-- Meeting files leaves no more of them unmet. -/
private theorem unmet_append_subset (m : MemoryFiles) (seen more : List Path) :
    m.unmet (seen ++ more) ⊆ m.unmet seen := by
  rw [unmet, List.toFinset_append]
  exact Finset.sdiff_subset_sdiff subset_rfl Finset.subset_union_left

/-- Meeting a file of the collection for the first time leaves fewer of them unmet. -/
private theorem unmet_concat_ssubset (known : p ∈ m.files.map Prod.fst) (new : p ∉ seen) :
    m.unmet (seen ++ [p]) ⊂ m.unmet seen := by
  refine (Finset.ssubset_iff_of_subset (m.unmet_append_subset seen [p])).mpr ⟨p, ?_, ?_⟩
  · simpa only [unmet, Finset.mem_sdiff, List.mem_toFinset] using ⟨known, new⟩
  · simp [unmet]

/-- All items can be unfolded. Whenever a file with items is entered, fewer files are unmet. -/
theorem exists_unfolds (m : MemoryFiles) (seen : List Path) (dir : Path) (items : List Item) :
    ∃ order flat, m.Unfolds seen dir items order flat := by
  match items with
  | [] => exact ⟨_, _, .done⟩
  | .declaration d :: items =>
      obtain ⟨order, flat, rest⟩ := exists_unfolds m seen dir items
      exact ⟨_, _, .declaration rest⟩
  | .inclusion i :: items =>
      by_cases met : target dir i ∈ seen
      · obtain ⟨order, flat, rest⟩ := exists_unfolds m seen dir items
        exact ⟨_, _, .again met rest⟩
      · have inside : ∃ inner flat, m.Unfolds (seen ++ [target dir i]) (target dir i).directory
            (m.itemsOf (target dir i)) inner flat := by
          cases loaded : m.load (target dir i) with
          | error e =>
              rw [itemsOf_of_error loaded]
              exact ⟨_, _, .done⟩
          | ok file =>
              have := Finset.card_lt_card (unmet_concat_ssubset (mem_of_load loaded) met)
              exact exists_unfolds m (seen ++ [target dir i]) (target dir i).directory
                (m.itemsOf (target dir i))
        obtain ⟨inner, innerFlat, inside⟩ := inside
        have := Finset.card_le_card (m.unmet_append_subset seen (target dir i :: inner))
        obtain ⟨order, flat, rest⟩ := exists_unfolds m (seen ++ target dir i :: inner) dir items
        exact ⟨_, _, .enter met inside rest⟩
termination_by ((m.unmet seen).card, items.length)
decreasing_by
  · exact Prod.Lex.right _ (Nat.lt_succ_self _)
  · exact Prod.Lex.right _ (Nat.lt_succ_self _)
  · exact Prod.Lex.left _ _ this
  · simp only [Prod.lex_def, List.length_cons]
    omega

end MetaAttack.MemoryFiles
