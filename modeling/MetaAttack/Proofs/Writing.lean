import Mathlib.Algebra.GroupWithZero.Nat
import Mathlib.Data.List.TakeWhile
import MetaAttack.Proofs.Locating

/-!
# Writing into a tree

Making a directory and writing a file take nothing away from a tree: directories stay directories,
and a path that led somewhere leads there still. What is written stands in the place that the
directory of its path leads to, under the last segment of the path.
-/

namespace MetaAttack

open MetaAttack.Path (Component)

variable {t t' t'' : FileTree} {p q : Path} {l m : Location} {s : String} {ss rest : List String}

/-- Every name in the location can be looked up in a directory. -/
def Location.Nameable (l : Location) : Prop :=
  ∀ s ∈ l, FileTree.isRelative s = false ∧ s.utf8ByteSize ≤ FileTree.nameLimit ∧ '\x00' ∉ s.toList

theorem Location.Nameable.proper (h : l.Nameable) : l.Proper := fun s hs => (h s hs).1

theorem Location.Nameable.nil : Location.Nameable [] := List.forall_mem_nil _

theorem Location.Nameable.append (h : l.Nameable) (h' : m.Nameable) :
    Location.Nameable (l ++ m) :=
  fun s hs => (List.mem_append.mp hs).elim (h s) (h' s)

namespace Path

/-! ### Paths below a path -/

/-- The segments of a path without the empty one behind a slash at its end. -/
def trunk (p : Path) : List String := if p.endsInSlash then p.segments.dropLast else p.segments

theorem segments_eq_trunk (p : Path) : p.segments = p.trunk ∨ p.segments = p.trunk ++ [""] := by
  rw [trunk, endsInSlash]
  cases last : p.segments.getLast? with
  | none =>
      rw [List.getLast?_eq_none_iff.mp last]
      exact .inl (ite_self _).symm
  | some s =>
      by_cases slash : s = ""
      · rw [slash] at last ⊢
        exact .inr (List.dropLast_append_getLast? _ last).symm
      · exact .inl (if_neg (mt of_decide_eq_true slash)).symm

theorem mem_of_mem_trunk (h : s ∈ p.trunk) : s ∈ p.segments := by
  rcases segments_eq_trunk p with same | same
  · rwa [same]
  · rw [same]
    exact List.mem_append_left _ h

theorem join_of_relative (relative : q.absolute = false) (below : q.segments ≠ []) :
    p.join q = ⟨p.absolute, p.trunk ++ q.segments⟩ := by
  rw [join, relative, if_neg Bool.false_ne_true, trunk]
  by_cases none : p = empty
  · obtain ⟨absolute, segments⟩ := q
    obtain rfl : absolute = false := relative
    rw [if_pos none, none]
    rfl
  · rw [if_neg none, List.isEmpty_eq_false_iff.mpr below]
    split
    · cases p.segments <;> rfl
    · rfl

theorem exists_gaps_of_trimEnd (absolute : Bool) (ss : List String) :
    ∃ gaps, ss = trimEnd absolute ss ++ gaps ∧ ∀ g ∈ gaps, g = "" ∨ g = "." := by
  cases ss with
  | nil => exact ⟨[], rfl, List.forall_mem_nil _⟩
  | cons s ss =>
      have gap : ∀ g ∈ (ss.reverse.takeWhile fun t => t = "" || t = ".").reverse,
          g = "" ∨ g = "." := by
        intro g hg
        simpa using List.mem_takeWhile_imp (List.mem_reverse.mp hg)
      have whole : (ss.reverse.dropWhile fun t => t = "" || t = ".").reverse ++
          (ss.reverse.takeWhile fun t => t = "" || t = ".").reverse = ss := by
        rw [← List.reverse_append, List.takeWhile_append_dropWhile, List.reverse_reverse]
      rw [trimEnd]
      split
      · next none =>
        simp only [Bool.and_eq_true, List.isEmpty_iff, Bool.or_eq_true, decide_eq_true_eq] at none
        refine ⟨_, rfl, List.forall_mem_cons.mpr ⟨none.2, ?_⟩⟩
        rw [none.1.1] at whole
        rwa [← whole]
      · exact ⟨_, congrArg (s :: ·) whole.symm, gap⟩

theorem filterMap_ofSegment?_of_gaps (gaps : ∀ g ∈ ss, g = "" ∨ g = ".") :
    ss.filterMap Component.ofSegment? = [] := by
  refine List.filterMap_eq_nil_iff.mpr fun g hg => ?_
  rw [Component.ofSegment?, if_pos (gaps g hg)]

theorem mem_of_mem_trimEnd {absolute : Bool} (h : s ∈ trimEnd absolute ss) : s ∈ ss := by
  obtain ⟨gaps, whole, -⟩ := exists_gaps_of_trimEnd absolute ss
  rw [whole]
  exact List.mem_append_left _ h

theorem trimEnd_concat {absolute : Bool} (name : FileTree.isRelative s = false) :
    trimEnd absolute (ss ++ [s]) = ss ++ [s] := by
  have kept : (s = "" || s = ".") = false := by
    rw [FileTree.isRelative, Bool.or_eq_false_iff] at name
    exact name.1
  cases ss with
  | nil =>
      rw [List.nil_append, trimEnd, kept, Bool.and_false, if_neg Bool.false_ne_true]
      rfl
  | cons r ss =>
      rw [List.cons_append, trimEnd, List.reverse_append, List.reverse_singleton,
        List.singleton_append, List.dropWhile_cons_of_neg (by simp [kept]), List.reverse_cons,
        List.reverse_reverse]
      simp

theorem parent?_concat {absolute : Bool} (name : FileTree.isRelative s = false) :
    parent? ⟨absolute, ss ++ [s]⟩ = some ⟨absolute, trimEnd absolute ss⟩ := by
  rw [parent?, trimEnd_concat name]
  cases ss with
  | nil => rfl
  | cons r ss =>
      have front : (r :: ss ++ [s]).dropLast = r :: ss := List.dropLast_concat
      exact congrArg (fun front => some (⟨absolute, trimEnd absolute front⟩ : Path)) front

theorem trimSlashes_concat {absolute : Bool} (named : s ≠ "") :
    trimSlashes ⟨absolute, ss ++ [s]⟩ = ⟨absolute, ss ++ [s]⟩ := by
  rw [trimSlashes, List.reverse_append, List.reverse_singleton, List.singleton_append,
    List.dropWhile_cons_of_neg (by simpa using named), List.reverse_cons, List.reverse_reverse]

theorem utf8ByteSize_text (p : Path) : p.text.utf8ByteSize =
    (if p.absolute then 1 else 0) +
      ((p.segments.map String.utf8ByteSize).sum + (p.segments.length - 1)) := by
  have joined (ss : List String) : ("/".intercalate ss).utf8ByteSize =
      (ss.map String.utf8ByteSize).sum + (ss.length - 1) := by
    induction ss with
    | nil => rfl
    | cons s ss ih =>
        cases ss with
        | nil => simp
        | cons r ss =>
            have slash : "/".utf8ByteSize = 1 := rfl
            rw [String.intercalate_cons_cons, String.utf8ByteSize_append,
              String.utf8ByteSize_append, ih, slash]
            simp only [List.map_cons, List.sum_cons, List.length_cons]
            omega
  rw [text, String.utf8ByteSize_append, joined]
  cases p.absolute <;> rfl

/-- A path can be looked up if one below it can. -/
theorem checkWhole_of_join (relative : q.absolute = false) (below : q.segments ≠ [])
    (some : p ≠ empty) (h : (p.join q).checkWhole = .ok ()) : p.checkWhole = .ok () := by
  rw [join_of_relative relative below, FileTree.checkWhole_eq_ok_iff, utf8ByteSize_text] at h
  obtain ⟨zero, -, short⟩ := h
  have size := List.length_pos_of_ne_nil below
  refine FileTree.checkWhole_eq_ok_iff.mpr ⟨fun s hs => ?_, some, ?_⟩
  · rcases segments_eq_trunk p with same | same
    · exact zero s (List.mem_append_left _ (same ▸ hs))
    · rw [same] at hs
      rcases List.mem_append.mp hs with hs | hs
      · exact zero s (List.mem_append_left _ hs)
      · rw [List.mem_singleton.mp hs]
        decide
  · rw [utf8ByteSize_text]
    rcases segments_eq_trunk p with same | same <;>
    · rw [same]
      simp only [List.map_append, List.sum_append, List.length_append, List.map_cons,
        List.map_nil, List.sum_cons, List.sum_nil, List.length_cons, List.length_nil,
        String.utf8ByteSize_empty] at short ⊢
      omega

end Path

namespace FileTree

/-! ### Trees that grow -/

/-- The second tree has whatever the first has, and directories are still directories. -/
structure GrowsTo (t t' : FileTree) : Prop where
  here : t'.here = t.here
  directory : ∀ l, t.get? l = some .directory → t'.get? l = some .directory
  there : ∀ l, (t.get? l).isSome → (t'.get? l).isSome

theorem GrowsTo.refl (t : FileTree) : t.GrowsTo t := ⟨rfl, fun _ => id, fun _ => id⟩

theorem GrowsTo.trans (h : t.GrowsTo t') (h' : t'.GrowsTo t'') : t.GrowsTo t'' where
  here := h'.here.trans h.here
  directory l dir := h'.directory l (h.directory l dir)
  there l there := h'.there l (h.there l there)

theorem growsTo_put {dir : Location} {name : String} {e : FileEntry}
    (hdir : t.get? dir = some .directory) (hfree : t.get? (dir ++ [name]) ≠ some .directory) :
    t.GrowsTo (t.put dir name e hdir hfree) where
  here := rfl
  directory l there := by
    have other : l ≠ dir ++ [name] := fun same => hfree (same ▸ there)
    rw [get?_put, if_neg other, there]
  there l there := by
    rw [get?_put]
    split
    · rfl
    · exact there

theorem GrowsTo.step (h : t.GrowsTo t') (made : t.step l s = .ok m) : t'.step l s = .ok m := by
  have dir := get?_of_step made
  rw [FileTree.step, dir] at made
  rw [FileTree.step, h.directory l dir]
  dsimp only at made ⊢
  split at made
  · next gap => rw [if_pos gap, made]
  · next noGap =>
    rw [if_neg noGap]
    split at made
    · next up => rw [if_pos up, made]
    · next noUp =>
      rw [if_neg noUp]
      split at made
      · cases made
      · next short =>
        rw [if_neg short]
        split at made
        · next there => rw [if_pos (h.there _ there), made]
        · cases made

theorem GrowsTo.foldlM {segments : List String} (h : t.GrowsTo t')
    (made : segments.foldlM t.step l = .ok m) : segments.foldlM t'.step l = .ok m := by
  induction segments generalizing l with
  | nil => exact made
  | cons s ss ih =>
      obtain ⟨k, first, rest⟩ := exists_of_foldlM_cons made
      rw [List.foldlM_cons, h.step first]
      exact ih rest

/-- A path that led somewhere leads there still. -/
theorem GrowsTo.follow {absolute : Bool} (h : t.GrowsTo t')
    (made : t.follow absolute ss = .ok l) : t'.follow absolute ss = .ok l := by
  rw [FileTree.follow, h.here]
  exact h.foldlM made

/-! ### Directories and files that are made -/

theorem target_concat {absolute : Bool} :
    t.target ⟨absolute, ss ++ [s]⟩ = (t.follow absolute ss).map (·, s) := by
  rw [target, List.getLast?_concat]
  dsimp only
  rw [List.dropLast_concat]

theorem target_concat_eq_ok_iff {absolute : Bool} {name : String} :
    t.target ⟨absolute, ss ++ [s]⟩ = .ok (l, name) ↔ t.follow absolute ss = .ok l ∧ s = name := by
  rw [target_concat]
  cases t.follow absolute ss with
  | error e => exact iff_of_false nofun fun h => nomatch h.1
  | ok k => rw [Except.map, Except.ok.injEq, Prod.mk.injEq, Except.ok.injEq]

theorem bind_eq_ok_iff {α β : Type} {x : Except FileError α} {f : α → Except FileError β} {b : β} :
    (x >>= f) = .ok b ↔ ∃ a, x = .ok a ∧ f a = .ok b := by
  cases x with
  | error e => exact iff_of_false nofun fun ⟨_, h, _⟩ => nomatch h
  | ok a => exact ⟨fun h => ⟨a, rfl, h⟩, fun ⟨_, same, h⟩ => Except.ok.inj same ▸ h⟩

theorem createDirectory_eq_ok_iff : t.createDirectory p = .ok t' ↔
    p.checkWhole = .ok () ∧ ∃ dir name, t.target p.trimSlashes = .ok (dir, name) ∧
      isRelative name = false ∧ name.utf8ByteSize ≤ nameLimit ∧
      ∃ (hdir : t.get? dir = some .directory) (free : t.get? (dir ++ [name]) = none),
        t' = t.put dir name .directory hdir (by simp [free]) := by
  simp only [createDirectory, bind_eq_ok_iff]
  constructor
  · rintro ⟨⟨⟩, whole, ⟨dir, name⟩, target, h⟩
    dsimp only at h
    split_ifs at h with hdir relative long free
    cases h
    exact ⟨whole, dir, name, target, Bool.not_eq_true _ ▸ relative, not_lt.mp long, hdir, free,
      rfl⟩
  · rintro ⟨whole, dir, name, target, proper, short, hdir, free, rfl⟩
    refine ⟨(), whole, (dir, name), target, ?_⟩
    dsimp only
    rw [dif_pos hdir, if_neg (ne_true_of_eq_false proper), if_neg (not_lt.mpr short), dif_pos free]
    rfl

theorem write_eq_ok_iff {text : Option String} : t.write p text = .ok t' ↔
    p.checkWhole = .ok () ∧ ∃ dir name, t.target p = .ok (dir, name) ∧
      isRelative name = false ∧ name.utf8ByteSize ≤ nameLimit ∧
      ∃ (hdir : t.get? dir = some .directory)
        (free : t.get? (dir ++ [name]) ≠ some .directory),
        t' = t.put dir name (.file text) hdir free := by
  simp only [write, bind_eq_ok_iff]
  constructor
  · rintro ⟨⟨⟩, whole, ⟨dir, name⟩, target, h⟩
    dsimp only at h
    split_ifs at h with hdir relative long taken
    cases h
    exact ⟨whole, dir, name, target, Bool.not_eq_true _ ▸ relative, not_lt.mp long, hdir, taken,
      rfl⟩
  · rintro ⟨whole, dir, name, target, proper, short, hdir, free, rfl⟩
    refine ⟨(), whole, (dir, name), target, ?_⟩
    dsimp only
    rw [dif_pos hdir, if_neg (ne_true_of_eq_false proper), if_neg (not_lt.mpr short), dif_neg free]
    rfl

/-- A directory can be made under a name that is not taken. -/
theorem exists_createDirectory {dir : Location} {name : String} (whole : p.checkWhole = .ok ())
    (target : t.target p.trimSlashes = .ok (dir, name)) (proper : isRelative name = false)
    (short : name.utf8ByteSize ≤ nameLimit) (hdir : t.get? dir = some .directory)
    (free : t.get? (dir ++ [name]) = none) :
    ∃ t', t.createDirectory p = .ok t' ∧
      ∀ l, t'.get? l = if l = dir ++ [name] then some .directory else t.get? l :=
  ⟨_, createDirectory_eq_ok_iff.mpr ⟨whole, dir, name, target, proper, short, hdir, free, rfl⟩,
    get?_put _ _ _ _ _ _⟩

/-- A file can be written under a name that is not that of a directory. -/
theorem exists_write {dir : Location} {name : String} (text : Option String)
    (whole : p.checkWhole = .ok ()) (target : t.target p = .ok (dir, name))
    (proper : isRelative name = false) (short : name.utf8ByteSize ≤ nameLimit)
    (hdir : t.get? dir = some .directory) (free : t.get? (dir ++ [name]) ≠ some .directory) :
    ∃ t', t.write p text = .ok t' ∧
      ∀ l, t'.get? l = if l = dir ++ [name] then some (.file text) else t.get? l :=
  ⟨_, write_eq_ok_iff.mpr ⟨whole, dir, name, target, proper, short, hdir, free, rfl⟩,
    get?_put _ _ _ _ _ _⟩

theorem growsTo_createDirectory (h : t.createDirectory p = .ok t') : t.GrowsTo t' := by
  obtain ⟨-, dir, name, -, -, -, hdir, free, rfl⟩ := createDirectory_eq_ok_iff.mp h
  exact growsTo_put hdir _

theorem growsTo_write {text : Option String} (h : t.write p text = .ok t') : t.GrowsTo t' := by
  obtain ⟨-, dir, name, -, -, -, hdir, free, rfl⟩ := write_eq_ok_iff.mp h
  exact growsTo_put hdir free

/-- Even where not all directories can be made, none is lost. -/
theorem growsTo_createDirectories (t : FileTree) (p : Path) :
    t.GrowsTo (t.createDirectories p).1 := by
  fun_induction t.createDirectories p with
  | case1 => exact .refl t
  | case2 p named t' made => exact growsTo_createDirectory made
  | case3 => exact .refl t
  | case4 p named missing parent above less t' e failed ih => rwa [failed] at ih
  | case5 p named missing parent above less t' made t'' last ih =>
      rw [made] at ih
      exact ih.trans (growsTo_createDirectory last)
  | case6 p orThere named missing parent above less t' made e last ih => rwa [made] at ih
  | case7 => exact .refl t

/-! ### Following through gaps -/

theorem foldlM_append {f : Location → String → Except FileError Location}
    (h : ss.foldlM f l = .ok m) : (ss ++ rest).foldlM f l = rest.foldlM f m := by
  rw [List.foldlM_append, h]
  rfl

theorem exists_of_foldlM_append {f : Location → String → Except FileError Location}
    (h : (ss ++ rest).foldlM f l = .ok m) :
    ∃ k, ss.foldlM f l = .ok k ∧ rest.foldlM f k = .ok m := by
  cases first : ss.foldlM f l with
  | error e =>
      rw [List.foldlM_append, first] at h
      cases h
  | ok k => exact ⟨k, rfl, by rwa [foldlM_append first] at h⟩

/-- Segments that count for nothing lead from a directory to itself. -/
theorem foldlM_gaps (dir : t.get? l = some .directory) (gaps : ∀ g ∈ ss, g = "" ∨ g = ".") :
    ss.foldlM t.step l = .ok l := by
  induction ss with
  | nil => rfl
  | cons s ss ih =>
      obtain ⟨first, rest⟩ := List.forall_mem_cons.mp gaps
      rw [List.foldlM_cons, step, dir]
      dsimp only
      rw [if_pos first]
      exact ih rest

/-- Segments that count for nothing can be left away at the end of a path. -/
theorem foldlM_of_gaps (gaps : ∀ g ∈ rest, g = "" ∨ g = ".")
    (h : (ss ++ rest).foldlM t.step l = .ok m) : ss.foldlM t.step l = .ok m := by
  obtain ⟨k, first, last⟩ := exists_of_foldlM_append h
  have same := follow_eq last
  rw [Path.filterMap_ofSegment?_of_gaps gaps] at same
  rw [first, same]
  rfl

theorem foldlM_trunk_iff (dir : t.get? m = some .directory) :
    p.trunk.foldlM t.step l = .ok m ↔ p.segments.foldlM t.step l = .ok m := by
  have gap : ∀ g ∈ [""], g = "" ∨ g = "." := by simp
  rcases p.segments_eq_trunk with same | same
  · rw [same]
  · rw [same]
    constructor
    · intro h
      rw [foldlM_append h, foldlM_gaps dir gap]
    · exact foldlM_of_gaps gap

/-- A path below one that leads to a directory is followed from there. -/
theorem follow_join (relative : q.absolute = false) (below : q.segments ≠ [])
    (dir : t.get? l = some .directory) (h : t.follow p.absolute p.segments = .ok l) :
    t.follow (p.join q).absolute (p.join q).segments = q.segments.foldlM t.step l := by
  rw [Path.join_of_relative relative below]
  exact foldlM_append ((foldlM_trunk_iff dir).mpr h)

/-- Below an empty directory is nothing. -/
theorem get?_of_isEmptyDirectory (located : t.locate p = .ok l)
    (empty : t.isEmptyDirectory p = true) :
    t.get? l = some .directory ∧ ∀ s m, t.get? (l ++ s :: m) = none := by
  rw [isEmptyDirectory, located] at empty
  simp only [Bool.and_eq_true, decide_eq_true_eq, Bool.not_eq_true', List.any_eq_false] at empty
  obtain ⟨dir, empty⟩ := empty
  have next : ∀ s e, t.get? (l ++ [s]) ≠ some e := by
    intro s e there
    exact absurd List.dropLast_concat (empty _ (mem_of_get? (by simp) there))
  refine ⟨dir, fun s m => ?_⟩
  cases there : t.get? (l ++ s :: m) with
  | none => rfl
  | some e =>
      by_cases last : m = []
      · rw [last] at there
        exact absurd there (next s e)
      · rw [List.append_cons] at there
        exact absurd (get?_above there last) (next s .directory)

/-! ### Names on the way -/

theorem nameable_of_step (names : l.Nameable) (noZero : '\x00' ∉ s.toList)
    (h : t.step l s = .ok m) : m.Nameable := by
  have leads := step_eq h
  rw [step, get?_of_step h] at h
  dsimp only at h
  split_ifs at h with gap up long there
  · exact Except.ok.inj h ▸ names
  · exact Except.ok.inj h ▸ fun r hr => names r (List.mem_of_mem_dropLast hr)
  · refine Except.ok.inj h ▸ names.append fun r hr => ?_
    rw [List.mem_singleton.mp hr]
    exact ⟨by simp [isRelative, not_or.mp gap, up], by omega, noZero⟩

theorem nameable_of_follow (names : l.Nameable) (noZero : ∀ s ∈ ss, '\x00' ∉ s.toList)
    (h : ss.foldlM t.step l = .ok m) : m.Nameable := by
  induction ss generalizing l with
  | nil => exact Except.ok.inj h ▸ names
  | cons s ss ih =>
      obtain ⟨k, first, rest⟩ := exists_of_foldlM_cons h
      obtain ⟨zero, zeros⟩ := List.forall_mem_cons.mp noZero
      exact ih (nameable_of_step names zero first) zeros rest

/-- What stands in a tree is found by its path from the root, if that is not too long. -/
theorem locate_ofLocation {e : FileEntry} (names : l.Nameable) (there : t.get? l = some e)
    (short : (Path.ofLocation l).text.utf8ByteSize ≤ Path.lengthLimit) :
    t.locate (.ofLocation l) = .ok l := by
  have whole : (Path.ofLocation l).checkWhole = .ok () :=
    checkWhole_eq_ok_iff.mpr ⟨fun s hs => (names s hs).2.2, nofun, short⟩
  have found := follow_names (l := []) (by rwa [List.nil_append]) names.proper
    fun s hs => (names s hs).2.1
  exact locate_eq_ok_iff.mpr ⟨whole, found⟩

end FileTree

end MetaAttack
