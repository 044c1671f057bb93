import MetaAttack.Proofs.Subtypes

/-!
# Joins of types

The type of a set is found by a search that treats its two operands differently: along the chain of
the second one, for an asset on the chain of the first. An asset extends at most one other, so what
is found is the least common ancestor, in whichever order the operands come, and sets of more than
two operands may be grouped in any way.

## Implementation notes

On a loop all assets are above each other, so a least common ancestor is not unique there and the
search may find one or another of them. `Schema.JoinAt` holds of each; only that it determines the
asset needs a chain that runs into no loop.
-/

namespace MetaAttack

open Relation

namespace Schema

variable {S : Schema} {P : String → Prop} {a b c d e : String}

/-- The chain of the asset comes to an asset that extends itself, directly or over others. -/
def RunsIntoLoop (S : Schema) (n : String) : Prop := ∃ m, S.Descends n m ∧ S.Inherits m m

/-- The last asset is a least one above the first two. -/
structure JoinAt (S : Schema) (a b c : String) : Prop where
  known : S.asset c
  left : S.Descends a c
  right : S.Descends b c
  least : ∀ d, S.asset d → S.Descends a d → S.Descends b d → S.Descends c d

/-- Whatever else on the chain has the property is above the nearest asset that has it. -/
theorem Nearest.descends_of_holds (hS : S.Coherent) (near : S.Nearest P a c)
    (above : S.Descends a d) (holds : P d) : S.Descends c d := by
  induction near with
  | here _ _ => exact above
  | above parent fails _ ih =>
      rcases ReflTransGen.cases_head above with rfl | ⟨p, edge, rest⟩
      · exact absurd holds fails
      · apply ih
        exact hS.parent parent edge.1 ▸ rest

theorem joinAt_of_nearest (hS : S.Coherent) (near : S.Nearest (S.Descends a) b c) :
    S.JoinAt a b c where
  known := near.asset
  left := near.holds
  right := near.descends hS
  least := fun _ _ left right => near.descends_of_holds hS right left

theorem exists_nearest_of_common (hS : S.Coherent) (known : S.asset d) (left : S.Descends a d)
    (right : S.Descends b d) : ∃ c, S.Nearest (S.Descends a) b c :=
  right.exists_nearest hS known left

/-- Where no loop is above it, two assets that descend from each other are one. -/
theorem Descends.antisymm (straight : ¬ S.RunsIntoLoop a) (path : S.Descends a b)
    (h : S.Descends b c) (h' : S.Descends c b) : b = c := by
  rcases h.eq_or_inherits with same | above
  · exact same
  · exact absurd ⟨b, path, above.trans_left h'⟩ straight

namespace JoinAt

theorem symm (h : S.JoinAt a b c) : S.JoinAt b a c where
  known := h.known
  left := h.right
  right := h.left
  least := fun d known left right => h.least d known right left

theorem unique (straight : ¬ S.RunsIntoLoop a) (h : S.JoinAt a b c) (h' : S.JoinAt a b d) :
    c = d := by
  apply Descends.antisymm straight h.left
  · exact h.least d h'.known h'.left h'.right
  · exact h'.least c h.known h.left h.right

/-- What is joined to the left can be joined to the right. -/
theorem assoc (hS : S.Coherent) (inner : S.JoinAt a b c) (outer : S.JoinAt c d e) :
    ∃ m, S.JoinAt b d m ∧ S.JoinAt a m e := by
  have above : S.Descends b e := inner.right.trans outer.left
  obtain ⟨m, near⟩ := exists_nearest_of_common hS outer.known above outer.right
  have join := joinAt_of_nearest hS near
  refine ⟨m, join, ?_⟩
  constructor
  case known => exact outer.known
  case left => exact inner.left.trans outer.left
  case right => exact join.least e outer.known above outer.right
  case least =>
    intro k known left right
    apply outer.least k known
    · exact inner.least k known left (join.left.trans right)
    · exact join.right.trans right

end JoinAt

end Schema

namespace Registry

variable {R : Registry} {a b c d : String}

theorem joinAt_of_join? (h : R.join? a b = some c) : R.schema.JoinAt a b c :=
  Schema.joinAt_of_nearest R.schema_coherent (join?_eq_some_iff.mp h)

/-- A join is found exactly if there is a common ancestor. -/
theorem join?_isSome_iff :
    (R.join? a b).isSome = true ↔ ∃ d, R.isSubtype a d = true ∧ R.isSubtype b d = true := by
  rw [Option.isSome_iff_exists]
  constructor
  · rintro ⟨c, hc⟩
    have join := joinAt_of_join? hc
    exact ⟨c, isSubtype_iff.mpr ⟨join.left, join.known⟩, isSubtype_iff.mpr ⟨join.right, join.known⟩⟩
  · rintro ⟨d, left, right⟩
    obtain ⟨left, known⟩ := isSubtype_iff.mp left
    obtain ⟨right, _⟩ := isSubtype_iff.mp right
    obtain ⟨c, near⟩ := Schema.exists_nearest_of_common R.schema_coherent known left right
    exact ⟨c, join?_eq_some_iff.mpr near⟩

theorem join?_eq_some_iff_joinAt (straight : ¬ R.schema.RunsIntoLoop a) :
    R.join? a b = some c ↔ R.schema.JoinAt a b c := by
  constructor
  · exact joinAt_of_join?
  · intro join
    obtain ⟨d, near⟩ :=
      Schema.exists_nearest_of_common R.schema_coherent join.known join.left join.right
    have join' := Schema.joinAt_of_nearest R.schema_coherent near
    obtain rfl := join'.unique straight join
    exact join?_eq_some_iff.mpr near

/-- The join is the least of the common ancestors. -/
theorem joinAt_iff :
    R.schema.JoinAt a b c ↔ R.isSubtype a c = true ∧ R.isSubtype b c = true ∧
      ∀ d, R.isSubtype a d = true → R.isSubtype b d = true → R.isSubtype c d = true := by
  constructor
  · intro join
    refine ⟨isSubtype_iff.mpr ⟨join.left, join.known⟩,
      isSubtype_iff.mpr ⟨join.right, join.known⟩, ?_⟩
    intro d left right
    obtain ⟨left, known⟩ := isSubtype_iff.mp left
    exact isSubtype_iff.mpr ⟨join.least d known left (isSubtype_iff.mp right).1, known⟩
  · rintro ⟨left, right, least⟩
    obtain ⟨left, known⟩ := isSubtype_iff.mp left
    obtain ⟨right, _⟩ := isSubtype_iff.mp right
    refine ⟨known, left, right, ?_⟩
    intro d known left right
    have below := least d (isSubtype_iff.mpr ⟨left, known⟩) (isSubtype_iff.mpr ⟨right, known⟩)
    exact (isSubtype_iff.mp below).1

theorem join?_comm (ha : ¬ R.schema.RunsIntoLoop a) (hb : ¬ R.schema.RunsIntoLoop b) :
    R.join? a b = R.join? b a := by
  apply Option.ext
  intro c
  rw [join?_eq_some_iff_joinAt ha, join?_eq_some_iff_joinAt hb]
  exact ⟨Schema.JoinAt.symm, Schema.JoinAt.symm⟩

/-- A subtype and its supertype join to the latter, on a loop as well. -/
theorem join?_of_isSubtype (h : R.isSubtype a b = true) : R.join? a b = some b := by
  obtain ⟨path, known⟩ := isSubtype_iff.mp h
  exact join?_eq_some_iff.mpr (.here known path)

/-- What is above an asset whose chain runs into no loop is such an asset too. -/
theorem not_runsIntoLoop_of_join? (straight : ¬ R.schema.RunsIntoLoop a)
    (h : R.join? a b = some c) : ¬ R.schema.RunsIntoLoop c := by
  rintro ⟨m, path, loop⟩
  exact straight ⟨m, (joinAt_of_join? h).left.trans path, loop⟩

theorem bind_join?_iff (ha : ¬ R.schema.RunsIntoLoop a) {e : String} :
    (R.join? a b).bind (R.join? · d) = some e ↔
      ∃ c, R.schema.JoinAt a b c ∧ R.schema.JoinAt c d e := by
  rw [Option.bind_eq_some_iff]
  constructor
  · rintro ⟨c, hc, he⟩
    exact ⟨c, joinAt_of_join? hc, joinAt_of_join? he⟩
  · rintro ⟨c, hc, he⟩
    have hc' := (join?_eq_some_iff_joinAt ha).mpr hc
    have straight := not_runsIntoLoop_of_join? ha hc'
    exact ⟨c, hc', (join?_eq_some_iff_joinAt straight).mpr he⟩

theorem bind_join?_right_iff (ha : ¬ R.schema.RunsIntoLoop a) (hb : ¬ R.schema.RunsIntoLoop b)
    {e : String} :
    (R.join? b d).bind (R.join? a ·) = some e ↔
      ∃ c, R.schema.JoinAt b d c ∧ R.schema.JoinAt a c e := by
  simp only [Option.bind_eq_some_iff, join?_eq_some_iff_joinAt ha, join?_eq_some_iff_joinAt hb]

/-- However three types are grouped, they have the same join, or none. -/
theorem join?_assoc (ha : ¬ R.schema.RunsIntoLoop a) (hb : ¬ R.schema.RunsIntoLoop b) :
    (R.join? a b).bind (R.join? · d) = (R.join? b d).bind (R.join? a ·) := by
  apply Option.ext
  intro e
  rw [bind_join?_iff ha, bind_join?_right_iff ha hb]
  constructor
  · rintro ⟨c, inner, outer⟩
    exact inner.assoc R.schema_coherent outer
  · rintro ⟨c, inner, outer⟩
    obtain ⟨m, left, right⟩ := inner.symm.assoc R.schema_coherent outer.symm
    exact ⟨m, left.symm, right.symm⟩

theorem hasCommonAncestor_eq (R : Registry) (a b : String) :
    R.hasCommonAncestor a b = (R.join? a b).isSome := by
  rw [hasCommonAncestor, join?, Option.isSome_map]

/-! ### Everything together -/

/-- What joining two types comes to. -/
structure Joined (R : Registry) (a b : String) : Prop where
  /-- The join is above both types, and below everything else that is. -/
  least : ∀ c, R.join? a b = some c ↔ R.isSubtype a c = true ∧ R.isSubtype b c = true ∧
    ∀ d, R.isSubtype a d = true → R.isSubtype b d = true → R.isSubtype c d = true
  none : R.join? a b = none ↔ ¬ ∃ d, R.isSubtype a d = true ∧ R.isSubtype b d = true
  comm : R.join? a b = R.join? b a
  /-- Each side has a join exactly if the other one has. -/
  assoc : ∀ d, (R.join? a b).bind (R.join? · d) = (R.join? b d).bind (R.join? a ·)

/-- Joins are least upper bounds in the order of types. -/
structure JoinsLeast (R : Registry) : Prop where
  joined : ∀ a b, ¬ R.schema.RunsIntoLoop a → ¬ R.schema.RunsIntoLoop b → R.Joined a b
  self : ∀ a, R.hasAsset a = true → R.join? a a = some a
  below : ∀ a b, R.isSubtype a b = true → R.join? a b = some b
  /-- Also on loops. -/
  shared : ∀ a b, R.hasCommonAncestor a b = R.hasCommonAncestor b a

theorem joinsLeast (R : Registry) : R.JoinsLeast where
  joined := by
    intro a b ha hb
    constructor
    case least => exact fun c => (join?_eq_some_iff_joinAt ha).trans joinAt_iff
    case none => rw [← join?_isSome_iff, Option.not_isSome_iff_eq_none]
    case comm => exact join?_comm ha hb
    case assoc => exact fun d => join?_assoc ha hb
  self := fun a known => join?_of_isSubtype (isSubtype_refl (hasAsset_iff.mp known))
  below := fun a b => join?_of_isSubtype
  shared := by
    intro a b
    rw [hasCommonAncestor_eq, hasCommonAncestor_eq, Bool.eq_iff_iff, join?_isSome_iff,
      join?_isSome_iff]
    simp only [and_comm]

end Registry

end MetaAttack
