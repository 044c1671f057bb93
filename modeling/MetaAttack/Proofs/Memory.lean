import MetaAttack.Proofs.Resolving

/-!
# What the memory keeps

A variable that was asked for is never forgotten. A failure is kept only together with a cause for
it in some answer: as long as no variable is kept as failed, an answer that is an error has a cause,
and one that is none keeps no variable as failed.
-/

namespace MetaAttack

namespace Memo

variable {m : Memo} {r : VariableRef} {v : Verdict}

/-- No variable is kept as failed. -/
def Clean (m : Memo) : Prop := ∀ r, m.find? r ≠ some .failed

/-- Nothing is remembered to have failed. -/
theorem clean_empty : Memo.empty.Clean := by
  intro r
  simp [Memo.empty, find?]

/-- Recording anything but a failure keeps a memory clean. -/
theorem Clean.record (h : m.Clean) (hv : v ≠ .failed) : (m.record r v).Clean := by
  intro q
  rw [find?_record]
  split
  · simpa using hv
  · exact h q

/-- Who has a verdict is known. -/
theorem mem_keys_of_find? (h : m.find? r = some v) : r ∈ m.keys := by
  apply Decidable.byContradiction
  intro unknown
  rw [find?_eq_none.mpr unknown] at h
  cases h

end Memo

namespace Registry

variable {R : Registry} {s : ResolverState} {r : VariableRef} {C : String} {span : Span}
variable {α β γ : Type}

/-! ### Variables are known from then on -/

/-- A declared variable is known once it was asked for. -/
theorem mem_keys_resolve {v : VariableEntry} (hv : R.declaredVariable? r = some v)
    (s : ResolverState) (span : Span) :
    r ∈ (R.resolve (.binding s r span)).state.memo.keys := by
  apply (R.finishes_resolve (.binding s r span)).of_ensures
    (Q := fun x => r ∈ x.state.memo.keys)
  rw [work]
  simp only [Ensures]
  split
  · next known => exact ensures_judge.mpr (Memo.mem_keys_of_find? known)
  · rw [hv]
    exact ⟨trivial, fun _ _ _ => Memo.mem_keys_record.mpr (.inl rfl)⟩

/-! ### Failures have causes -/

/-- An error has a cause, and what is no error leaves no failure behind. -/
def Caused (a : Answer α) : Prop :=
  match a.result with
  | .ok _ => a.state.memo.Clean
  | .error es => es ≠ []

section Caused

variable {a : Answer α} {t : α} {es : List ResolveError} {x : Resolution α}

theorem caused_of_ok (ht : a.result = .ok t) (h : a.state.memo.Clean) : Caused a := by
  rw [Caused, ht]
  exact h

/-- An error that names a cause accounts for itself. -/
theorem caused_of_error (he : a.result = .error es) (h : es ≠ []) : Caused a := by
  rw [Caused, he]
  exact h

theorem Caused.clean (h : Caused a) (ht : a.result = .ok t) : a.state.memo.Clean := by
  rw [Caused, ht] at h
  exact h

theorem Caused.ne_nil (h : Caused a) (he : a.result = .error es) : es ≠ [] := by
  rw [Caused, he] at h
  exact h

/-- A judgement that has a cause where it fails is caused, from a memory without failures. -/
theorem caused_judge (clean : s.memo.Clean) (hx : ∀ es, x = .error es → es ≠ []) :
    Caused (⟨x, s⟩ : Answer α) := by
  cases x with
  | ok t => exact caused_of_ok rfl clean
  | error es => exact caused_of_error rfl (hx es rfl)

end Caused

theorem typeOfField_caused {name : Ident} {es : List ResolveError}
    (h : R.typeOfField C name = .error es) : es ≠ [] := by
  rw [typeOfField] at h
  split at h <;> cases h
  simp

theorem typeOfSet_caused {left right : String} {es : List ResolveError}
    (h : R.typeOfSet span left right = .error es) : es ≠ [] := by
  rw [typeOfSet] at h
  split at h <;> cases h
  simp

theorem typeOfClosure_caused {t : String} {es : List ResolveError}
    (h : R.typeOfClosure C span t = .error es) : es ≠ [] := by
  rw [typeOfClosure] at h
  split at h <;> cases h
  simp

theorem typeOfRestriction_caused {A : Ident} {t : String} {es : List ResolveError}
    (h : R.typeOfRestriction A t = .error es) : es ≠ [] := by
  rw [typeOfRestriction] at h
  split at h
  · cases h
    simp
  · split at h <;> cases h
    simp

theorem stepOfField_caused {name : Ident} {es : List ResolveError}
    (h : R.stepOfField C name = .error es) : es ≠ [] := by
  rw [stepOfField] at h
  split at h <;> cases h
  simp

/-- All that a clean memory holds against a variable is that it is in progress, and that is a
cycle. -/
theorem remembered_caused {v : Verdict} (clean : s.memo.Clean) (hv : s.memo.find? r = some v)
    {es : List ResolveError} (h : s.remembered r span v = .error es) : es ≠ [] := by
  cases v with
  | typed t => cases h
  | failed => exact absurd hv (clean r)
  | undecided =>
      cases h
      exact List.cons_ne_nil _ _

/-- From a memory without failures the run of the task is caused. -/
def CausedFrom (q : Task) (x : Run q.Target) : Prop := q.known.Clean → Caused x.toAnswer

/-- The work is caused, if the tasks that it waits for are. -/
def EnsuresCaused (R : Registry) (w : Work α) : Prop :=
  R.Ensures (fun _ => True) CausedFrom w fun y => Caused y.toAnswer

theorem ensuresCaused_judge {x : Resolution α} (clean : s.memo.Clean)
    (hx : ∀ es, x = .error es → es ≠ []) : R.EnsuresCaused (.judge x s) :=
  ensures_judge.mpr (caused_judge clean hx)

/-- A task that is waited for last is the answer. -/
theorem ensuresCaused_last {q : Task} (clean : q.known.Clean) :
    R.EnsuresCaused (.await q .done) :=
  ensures_last trivial fun _ _ caused => caused clean

/-- A part with a type leaves no failure behind that what comes next could meet. -/
theorem ensuresCaused_andThen {e : Expr} {next : String → ResolverState → Work α}
    (clean : s.memo.Clean) (h : ∀ t s', s'.memo.Clean → R.EnsuresCaused (next t s')) :
    R.EnsuresCaused (.await (.type s C e) fun a => a.andThen next) := by
  apply ensures_await_andThen trivial
  · intro x t _ caused ht
    have part : Caused x.toAnswer := caused clean
    exact h t x.state (part.clean ht)
  · intro x es _ caused he
    have part : Caused x.toAnswer := caused clean
    exact caused_of_error rfl (part.ne_nil he)

/-- A failure is recorded only where its causes are handed on. -/
theorem ensuresCaused_binding (clean : s.memo.Clean) :
    R.EnsuresCaused (R.work (.binding s r span)) := by
  rw [EnsuresCaused, work]
  simp only [Ensures]
  split
  · next v hv => exact ensuresCaused_judge clean fun _ => remembered_caused clean hv
  · split
    · exact ensuresCaused_judge clean fun es h => (by cases h; simp)
    · refine ⟨trivial, fun x _ caused => ?_⟩
      have body : Caused x.toAnswer := caused (clean.record (by simp))
      cases hx : x.result with
      | error es => exact caused_of_error hx (body.ne_nil hx)
      | ok t =>
          have typed : Verdict.ofResult x.result ≠ .failed := by simp [hx, Verdict.ofResult]
          exact caused_of_ok hx ((body.clean hx).record typed)

/-- The right operand meets a failure only where the left one has told a cause. -/
theorem ensuresCaused_combine {op : SetOp} {lhs rhs : Expr} (clean : s.memo.Clean) :
    R.EnsuresCaused (R.work (.type s C (.combine op lhs rhs span))) := by
  refine ⟨trivial, fun x _ causedLeft => ⟨trivial, fun y _ causedRight => ?_⟩⟩
  have left : Caused x.toAnswer := causedLeft clean
  refine ensures_both.mpr ⟨fun t u ht hu => ?_, fun untyped => ?_⟩
  · have right : Caused y.toAnswer := causedRight (left.clean ht)
    exact ensures_judge.mpr (caused_judge (right.clean hu) fun _ => typeOfSet_caused)
  · apply caused_of_error rfl
    intro none
    obtain ⟨noneLeft, noneRight⟩ := List.append_eq_nil_iff.mp none
    cases hx : x.result with
    | error es =>
        rw [hx] at noneLeft
        exact left.ne_nil hx noneLeft
    | ok t =>
        have right : Caused y.toAnswer := causedRight (left.clean hx)
        cases hy : y.result with
        | error es =>
            rw [hy] at noneRight
            exact right.ne_nil hy noneRight
        | ok u => exact untyped t u hx hy

theorem ensuresCaused_work (R : Registry) (q : Task) (clean : q.known.Clean) :
    R.EnsuresCaused (R.work q) := by
  cases q with
  | binding s r span => exact ensuresCaused_binding clean
  | type s C e =>
      cases e with
      | field name span => exact ensuresCaused_judge clean fun _ => typeOfField_caused
      | call name span =>
          rw [work]
          split
          · exact ensuresCaused_last clean
          · exact ensuresCaused_judge clean fun es h => (by cases h; simp)
      | collect lhs rhs span =>
          exact ensuresCaused_andThen clean fun t s' clean' => ensuresCaused_last clean'
      | combine op lhs rhs span => exact ensuresCaused_combine clean
      | closure e span =>
          exact ensuresCaused_andThen clean fun t s' clean' =>
            ensuresCaused_judge clean' fun _ => typeOfClosure_caused
      | restrict e A span =>
          exact ensuresCaused_andThen clean fun t s' clean' =>
            ensuresCaused_judge clean' fun _ => typeOfRestriction_caused
  | step s C e =>
      cases e with
      | field name span => exact ensuresCaused_judge clean fun _ => stepOfField_caused
      | collect lhs rhs span =>
          exact ensuresCaused_andThen clean fun t s' clean' => ensuresCaused_last clean'
      | call _ _ | combine _ _ _ _ | closure _ _ | restrict _ _ _ =>
          exact ensuresCaused_judge clean fun es h => (by cases h; simp)

/-- From a memory without failures every run is caused. -/
theorem resolve_caused (q : Task) (clean : q.known.Clean) : Caused (R.resolve q).toAnswer :=
  R.resolve_induction (fun _ => True) CausedFrom
    (fun q _ => ensures_of_imp (ensuresCaused_work R q)) q trivial clean

end Registry

end MetaAttack
