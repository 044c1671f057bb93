import MetaAttack.Files.Path

/-!
# Normal paths

Normalizing leaves the components of a path in a normal form: no `.` is among them, and the root
only in front. A path in normal form is known by its components, so two normal paths that name the
same place are equal.
-/

namespace MetaAttack.Path

variable {p q : Path} {c : Component} {cs out : List Component}

/-- A component that its text stands for anywhere in a path. -/
def Component.Plain (c : Component) : Prop := ofSegment? c.segment = some c

namespace Component

/-- What a segment was read as is read off its own text again. -/
theorem plain_of_ofSegment? {s : String} (h : ofSegment? s = some c) : c.Plain := by
  unfold ofSegment? at h
  split at h
  · cases h
  · next proper =>
    split at h
    · obtain rfl := Option.some.inj h
      rfl
    · next below =>
      obtain rfl := Option.some.inj h
      rw [Plain, segment, ofSegment?, if_neg proper, if_neg below]

theorem Plain.segment_ne (h : c.Plain) : c.segment ≠ "." := by
  intro dot
  rw [Plain, dot] at h
  cases h

theorem not_plain_root : ¬ root.Plain := by
  intro h
  cases h

/-- Plain components are read back from their texts. -/
theorem filterMap_segment (plain : ∀ c ∈ cs, c.Plain) :
    (cs.map segment).filterMap ofSegment? = cs := by
  induction cs with
  | nil => rfl
  | cons c cs ih =>
      rw [List.forall_mem_cons] at plain
      rw [List.map_cons, List.filterMap_cons_some plain.1, ih plain.2]

end Component

/-- Components among which no `.` is, and the root at most in front. -/
inductive NormalForm : List Component → Prop
  | relative {cs : List Component} (plain : ∀ c ∈ cs, c.Plain) : NormalForm cs
  | absolute {cs : List Component} (plain : ∀ c ∈ cs, c.Plain) : NormalForm (.root :: cs)

/-- A normal form is written and read back as it is. -/
theorem components_ofComponents (h : NormalForm cs) : (ofComponents cs).components = cs := by
  cases h with
  | absolute plain => exact congrArg _ (Component.filterMap_segment plain)
  | relative plain =>
      have shape : ofComponents cs = ⟨false, cs.map Component.segment⟩ := by
        unfold ofComponents
        split
        · next cs' => exact absurd (plain _ List.mem_cons_self) Component.not_plain_root
        · rfl
      rw [shape, components, if_neg Bool.false_ne_true]
      split
      · next ss dot =>
        -- no plain component has the text `.`
        have texts : cs.map Component.segment = "." :: ss := dot
        obtain ⟨c, hc, text⟩ := List.mem_map.mp (texts ▸ List.mem_cons_self)
        exact absurd text (plain c hc).segment_ne
      · exact Component.filterMap_segment plain

theorem NormalForm.concat (h : NormalForm out) (plain : c.Plain) : NormalForm (out ++ [c]) := by
  have last : ∀ {cs : List Component}, (∀ c ∈ cs, c.Plain) → ∀ d ∈ cs ++ [c], d.Plain := by
    intro cs plains d hd
    rcases List.mem_append.mp hd with hd | hd
    · exact plains d hd
    · exact List.mem_singleton.mp hd ▸ plain
  cases h with
  | relative plains => exact .relative (last plains)
  | absolute plains => exact .absolute (last plains)

theorem NormalForm.dropLast (h : NormalForm out) : NormalForm out.dropLast := by
  cases h with
  | relative plains => exact .relative fun c hc => plains c ((List.dropLast_sublist _).subset hc)
  | @absolute cs plains =>
      cases cs with
      | nil => exact .relative (List.forall_mem_nil _)
      | cons d ds =>
          rw [List.dropLast_cons_cons]
          exact .absolute fun c hc => plains c ((List.dropLast_sublist _).subset hc)

/-- Taking in one more component keeps the normal form. -/
theorem NormalForm.pushNormal (h : NormalForm out) (plain : c.Plain) :
    NormalForm (pushNormal out c) := by
  cases c with
  | root => exact absurd plain Component.not_plain_root
  | here => exact h
  | name s => exact h.concat plain
  | up =>
      rw [Path.pushNormal]
      split
      · exact h.concat rfl
      · exact h.dropLast

theorem NormalForm.foldl_pushNormal (h : NormalForm out) (plain : ∀ c ∈ cs, c.Plain) :
    NormalForm (cs.foldl Path.pushNormal out) := by
  induction cs generalizing out with
  | nil => exact h
  | cons c cs ih =>
      rw [List.forall_mem_cons] at plain
      exact ih (h.pushNormal plain.1) plain.2

/-- What is folded together from nothing is in normal form. -/
theorem normalForm_normalized (p : Path) : NormalForm (p.components.foldl pushNormal []) := by
  have plain : ∀ ss : List String, ∀ c ∈ ss.filterMap Component.ofSegment?, c.Plain := by
    intro ss c hc
    obtain ⟨s, _, hs⟩ := List.mem_filterMap.mp hc
    exact Component.plain_of_ofSegment? hs
  have start : NormalForm [] := .relative (List.forall_mem_nil _)
  rw [components]
  split
  · have root : NormalForm [.root] := .absolute (List.forall_mem_nil _)
    exact root.foldl_pushNormal (plain _)
  · split
    · next ss _ =>
      change NormalForm ((ss.filterMap Component.ofSegment?).foldl pushNormal [])
      exact start.foldl_pushNormal (plain ss)
    · exact start.foldl_pushNormal (plain _)

theorem components_normalize (p : Path) :
    p.normalize.components = p.components.foldl pushNormal [] :=
  components_ofComponents (normalForm_normalized p)

/-- A path that normalizing yields. -/
def Normal (p : Path) : Prop := ∃ q : Path, q.normalize = p

/-- A normalized path is normal. -/
theorem normal_normalize (p : Path) : p.normalize.Normal := ⟨p, rfl⟩

theorem Normal.ofComponents_components (h : p.Normal) : ofComponents p.components = p := by
  obtain ⟨q, rfl⟩ := h
  rw [components_normalize]
  rfl

/-- Normal paths that name the same place are equal. -/
theorem Normal.sameAs_iff (hp : p.Normal) (hq : q.Normal) : p.sameAs q = true ↔ p = q := by
  rw [sameAs, decide_eq_true_iff]
  constructor
  · intro same
    rw [← hp.ofComponents_components, same, hq.ofComponents_components]
  · exact congrArg components

/-- Among normal paths, naming the same is being the same. -/
theorem Normal.any_sameAs_iff {seen : List Path} (hp : p.Normal) (normal : ∀ q ∈ seen, q.Normal) :
    seen.any p.sameAs = true ↔ p ∈ seen := by
  rw [List.any_eq_true]
  constructor
  · rintro ⟨q, hq, same⟩
    exact (hp.sameAs_iff (normal q hq)).mp same ▸ hq
  · intro h
    exact ⟨p, h, (hp.sameAs_iff hp).mpr rfl⟩

end MetaAttack.Path
