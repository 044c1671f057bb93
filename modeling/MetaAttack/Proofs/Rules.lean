import MetaAttack.Proofs.Chain
import MetaAttack.Typing.Judgement

/-!
# The rules as functions

Each form of an expression is judged from the types of its parts. If the parts have these types, the
judgement finds exactly the type that the rule for the form gives.
-/

namespace MetaAttack

/-- The resolution yields exactly the results with the property. -/
def Resolution.Exact {α : Type} (x : Resolution α) (P : α → Prop) : Prop :=
  ∀ t, x = .ok t ↔ P t

theorem exact_error {α : Type} {es : List ResolveError} {P : α → Prop} (h : ∀ t, ¬ P t) :
    Resolution.Exact (.error es) P := by
  intro t
  constructor
  · intro h
    cases h
  · exact fun ht => absurd ht (h t)

/-- Without a result nothing has the property. -/
theorem Resolution.Exact.not_of_error {α : Type} {x : Resolution α} {P : α → Prop}
    {es : List ResolveError} (h : x.Exact P) (he : x = .error es) (t : α) : ¬ P t := by
  intro ht
  rw [(h t).mpr ht] at he
  cases he

namespace Registry

variable {R : Registry} {C : String} {e : Expr} {span : Span}

/-- The nearest field decides, and there is an error where there is none. -/
theorem typeOfField_exact (R : Registry) (C : String) (name : Ident) (span : Span) :
    (R.typeOfField C name).Exact (R.schema.HasType C (.field name span)) := by
  intro T
  unfold typeOfField
  constructor
  · intro h
    cases hf : R.findField? C name.name with
    | none => simp [hf] at h
    | some f =>
        obtain rfl : f.target = T := by simpa [hf] using h
        obtain ⟨D, a, near, ha, hf⟩ := findField?_eq_some_iff.mp hf
        exact .field near ⟨a, ha, f, hf, rfl⟩
  · intro h
    cases h with
    | field near target =>
        obtain ⟨a, ha, f, hf, rfl⟩ := target
        rw [findField?_eq_some_iff.mpr ⟨_, a, near, ha, hf⟩]

/-- The least common ancestor of both operands, if they have one. -/
theorem typeOfSet_exact {A B : String} {op : SetOp} {l r : Expr} (left : R.schema.HasType C l A)
    (right : R.schema.HasType C r B) :
    (R.typeOfSet span A B).Exact (R.schema.HasType C (.combine op l r span)) := by
  intro T
  rw [typeOfSet]
  constructor
  · intro h
    cases hj : R.join? A B with
    | none => simp [hj] at h
    | some t =>
        obtain rfl : t = T := by simpa [hj] using h
        exact .combine left right (join?_eq_some_iff.mp hj)
  · intro h
    cases h with
    | combine left' right' shared =>
        obtain rfl := left.unique R.schema_coherent left'
        obtain rfl := right.unique R.schema_coherent right'
        rw [join?_eq_some_iff.mpr shared]

/-- A closure has the type of its operand, where one can go on from that type as from the
context. -/
theorem typeOfClosure_exact {A : String} (inner : R.schema.HasType C e A) :
    (R.typeOfClosure C span A).Exact (R.schema.HasType C (.closure e span)) := by
  intro T
  rw [typeOfClosure]
  constructor
  · intro h
    split at h
    · next below =>
      cases h
      exact .closure inner (isSubtype_iff.mp below).1
    · cases h
  · intro h
    cases h with
    | closure inner' below =>
        obtain rfl := inner.unique R.schema_coherent inner'
        -- Where the inner expression has a type, the context is declared.
        have known := below.asset (inner.context R.schema_coherent)
        rw [if_pos (isSubtype_iff.mpr ⟨below, known⟩)]

theorem typeOfRestriction_exact {B : String} {A : Ident} (inner : R.schema.HasType C e B) :
    (R.typeOfRestriction A B).Exact (R.schema.HasType C (.restrict e A span)) := by
  intro T
  rw [typeOfRestriction]
  constructor
  · intro h
    split at h
    · cases h
    · next known =>
      split at h
      · next below =>
        cases h
        exact .restrict inner (hasAsset_iff.mp (by simpa using known)) (isSubtype_iff.mp below).1
      · cases h
  · intro h
    cases h with
    | restrict inner' known below =>
        obtain rfl := inner.unique R.schema_coherent inner'
        have target := below.asset known
        rw [if_neg (by simp [hasAsset_iff.mpr known]), if_pos (isSubtype_iff.mpr ⟨below, target⟩)]

/-- A bare name is a step of this asset, even if it is inherited. -/
theorem stepOfField_exact (R : Registry) (C : String) (name : Ident) (span : Span) :
    (R.stepOfField C name).Exact (R.schema.LeadsTo C (.field name span)) := by
  intro ref
  have found := findStep?_isSome_iff (R := R) (n := C) (x := name.name)
  rw [stepOfField]
  constructor
  · intro h
    split at h
    · next hs =>
      obtain ⟨D, above, declared⟩ := found.mp hs
      cases h
      exact .step above declared
    · cases h
  · intro h
    cases h with
    | step above declared => rw [if_pos (found.mpr ⟨_, above, declared⟩)]

end Registry

end MetaAttack
