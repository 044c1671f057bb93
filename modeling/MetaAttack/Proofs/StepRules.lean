import Mathlib.Data.List.Nodup
import MetaAttack.Check.Steps

/-!
# The rules for single steps

What the checks of a step find is stated as a rule on the step as it is declared. The rule for a
time speaks of the distributions that occur in it, each with the operators that it stands below.
-/

namespace MetaAttack

namespace Ttc

/-- The distribution with these parameters stands in the expression below these operators, the
outermost first. -/
inductive Occurs : Ttc → String → List Float → List TtcOp → Prop
  | here {n ps s} : Occurs (.distribution n ps s) n.name ps []
  | left {op l r s name ps ops} (h : Occurs l name ps ops) :
      Occurs (.binary op l r s) name ps (op :: ops)
  | right {op l r s name ps ops} (h : Occurs r name ps ops) :
      Occurs (.binary op l r s) name ps (op :: ops)

/-- The parameters are as many as the distribution has, and in its range. -/
def Parameterized (name : String) (ps : List Float) : Prop :=
  ∃ d ∈ Distribution.all, d.name = name ∧ ps.length = d.params.length ∧
    ∀ r, d.range = some r → r.holds ps

/-- Every distribution in the expression is known, with parameters in its range. A value stands
below sums and products only, and what turns a step on or off below nothing. -/
def Legal (t : Ttc) : Prop :=
  ∀ name ps ops, t.Occurs name ps ops →
    Parameterized name ps ∧
      ((name = "Bernoulli" ∨ name = "EasyAndUncertain") → ∀ op ∈ ops, op = .add ∨ op = .mul) ∧
      ((name = "Enabled" ∨ name = "Disabled") → ops = [])

end Ttc

/-- The step breaks none of the rules that it has to follow by itself. -/
structure AttackStep.Legal (s : AttackStep) : Prop where
  existence : s.kind.isExistence → s.requires.isSome ∧ s.ttc = none
  requires : ¬ s.kind.isExistence → s.requires = none
  classification : s.cia.isSome → s.kind = .allOf ∨ s.kind = .anyOf
  defense : s.kind = .defense → ∀ t, s.ttc = some t →
    ∃ name ∈ ["Enabled", "Disabled", "Bernoulli"], t.distributionName? = some name
  attack : s.kind = .allOf ∨ s.kind = .anyOf → ∀ t, s.ttc = some t →
    t.distributionName? ≠ some "Enabled" ∧ t.distributionName? ≠ some "Disabled"
  time : ∀ t, s.ttc = some t → t.Legal

/-! ### Distributions -/

namespace Distribution

/-- No two distributions have one name. -/
theorem nodup_all : (all.map Distribution.name).Nodup := by decide

theorem find?_eq_some_iff {name : String} {d : Distribution} :
    find? name = some d ↔ d ∈ all ∧ d.name = name := by
  constructor
  · exact fun h => ⟨List.mem_of_find?_eq_some h, by simpa using List.find?_some h⟩
  · rintro ⟨hd, rfl⟩
    obtain ⟨e, he⟩ := Option.isSome_iff_exists.mp
      (List.find?_isSome (p := fun e : Distribution => decide (e.name = d.name)).mpr
        ⟨d, hd, by simp⟩)
    have same : e.name = d.name := by simpa using List.find?_some he
    have unique : e = d :=
      List.inj_on_of_nodup_map nodup_all (List.mem_of_find?_eq_some he) hd same
    rw [find?, he, unique]

end Distribution

namespace Ttc

variable {name : String} {ps : List Float} {span : Span}

/-- A leaf is in order exactly if its distribution is known and has parameters in range. -/
theorem leafErrors_eq_nil_iff : leafErrors name ps span = [] ↔ Parameterized name ps := by
  rw [leafErrors, Parameterized]
  cases hd : Distribution.find? name with
  | none =>
      simp only [List.cons_ne_nil, false_iff]
      rintro ⟨d, hmem, hname, _⟩
      rw [Distribution.find?_eq_some_iff.mpr ⟨hmem, hname⟩] at hd
      cases hd
  | some d =>
      have known := Distribution.find?_eq_some_iff.mp hd
      have only : (∃ e ∈ Distribution.all, e.name = name ∧ ps.length = e.params.length ∧
            ∀ r, e.range = some r → r.holds ps) ↔
          ps.length = d.params.length ∧ ∀ r, d.range = some r → r.holds ps := by
        constructor
        · rintro ⟨e, hmem, hname, h⟩
          rw [Distribution.find?_eq_some_iff.mpr ⟨hmem, hname⟩] at hd
          exact Option.some.inj hd ▸ h
        · exact fun h => ⟨d, known.1, known.2, h⟩
      rw [only]
      dsimp only
      by_cases hlen : ps.length = d.params.length
      · cases hr : d.range <;> simp [hlen]
      · simp [hlen]

/-- Where a distribution is known, its place is right if it is no value below an operator on times
and turns nothing on or off below any operator. -/
theorem placeErrors_eq_nil_iff {restricted operand : Bool} (h : Parameterized name ps) :
    placeErrors restricted operand name span = [] ↔
      ((name = "Bernoulli" ∨ name = "EasyAndUncertain") → restricted = false) ∧
        ((name = "Enabled" ∨ name = "Disabled") → operand = false) := by
  obtain ⟨d, hmem, rfl, _⟩ := h
  rw [placeErrors, Distribution.find?_eq_some_iff.mpr ⟨hmem, rfl⟩]
  simp only [List.append_eq_nil_iff]
  cases restricted <;> cases operand <;>
    simp [Distribution.isValueOnly, Distribution.isLogical, Distribution.logicalName]

theorem timesOnly_eq_false_iff {op : TtcOp} : op.timesOnly = false ↔ op = .add ∨ op = .mul := by
  cases op <;> simp [TtcOp.timesOnly]

/-- The distribution may stand below these operators, and below those that have been passed. -/
def Fits (restricted operand : Bool) (name : String) (ps : List Float) (ops : List TtcOp) : Prop :=
  Parameterized name ps ∧
    ((name = "Bernoulli" ∨ name = "EasyAndUncertain") →
      restricted = false ∧ ∀ op ∈ ops, op = .add ∨ op = .mul) ∧
    ((name = "Enabled" ∨ name = "Disabled") → operand = false ∧ ops = [])

/-- An operator restricts all that is below it. -/
theorem fits_cons_iff {restricted operand : Bool} {op : TtcOp} {ops : List TtcOp} :
    Fits restricted operand name ps (op :: ops) ↔
      Fits (restricted || op.timesOnly) true name ps ops := by
  simp only [Fits, Bool.or_eq_false_iff, List.forall_mem_cons, timesOnly_eq_false_iff, and_assoc]
  simp

/-- A time is in order exactly if each of its leaves fits where it stands. -/
theorem errors_eq_nil_iff {t : Ttc} {restricted operand : Bool} :
    t.errors restricted operand = [] ↔
      ∀ name ps ops, t.Occurs name ps ops → Fits restricted operand name ps ops := by
  induction t generalizing restricted operand with
  | number v s =>
      simp only [errors, true_iff]
      intro name ps ops h
      cases h
  | distribution n ps s =>
      rw [errors, List.append_eq_nil_iff, leafErrors_eq_nil_iff]
      constructor
      · rintro ⟨known, place⟩ name qs ops h
        cases h with
        | here =>
            obtain ⟨value, logical⟩ := (placeErrors_eq_nil_iff known).mp place
            exact ⟨known, fun h => ⟨value h, by simp⟩, fun h => ⟨logical h, rfl⟩⟩
      · intro h
        obtain ⟨known, value, logical⟩ := h n.name ps [] .here
        exact ⟨known, (placeErrors_eq_nil_iff known).mpr
          ⟨fun h => (value h).1, fun h => (logical h).1⟩⟩
  | binary op l r s ihl ihr =>
      rw [errors, List.append_eq_nil_iff, ihl, ihr]
      constructor
      · rintro ⟨hl, hr⟩ name ps ops h
        cases h with
        | left h => exact fits_cons_iff.mpr (hl _ _ _ h)
        | right h => exact fits_cons_iff.mpr (hr _ _ _ h)
      · intro h
        constructor
        · exact fun name ps ops hl => fits_cons_iff.mp (h name ps (op :: ops) (.left hl))
        · exact fun name ps ops hr => fits_cons_iff.mp (h name ps (op :: ops) (.right hr))

/-- A time without errors is legal. -/
theorem errors_eq_nil_iff_legal {t : Ttc} : t.errors false false = [] ↔ t.Legal := by
  simp only [errors_eq_nil_iff, Fits, Legal, true_and]

end Ttc

/-! ### Steps -/

namespace StepEntry

variable {s : StepEntry} {asset : String}

/-- Existence steps ask for something and take no time; no other step asks for anything. -/
theorem existenceErrors_eq_nil_iff :
    s.existenceErrors = [] ↔
      (s.kind.isExistence → s.requires.isSome ∧ s.ttc = none) ∧
        (¬ s.kind.isExistence → s.requires = none) := by
  rw [existenceErrors]
  cases s.kind.isExistence <;> cases s.requires <;> cases s.ttc <;> simp

theorem classificationErrors_eq_nil_iff :
    s.classificationErrors asset = [] ↔
      (s.cia.isSome → s.kind = .allOf ∨ s.kind = .anyOf) := by
  rw [classificationErrors]
  cases s.cia <;> cases s.kind <;> simp [hasNoClassification]

/-- Three distributions may stand on a defense. -/
theorem allowedOnDefense_iff {t : Ttc} :
    t.allowedOnDefense = true ↔
      ∃ name ∈ ["Enabled", "Disabled", "Bernoulli"], t.distributionName? = some name := by
  rw [Ttc.allowedOnDefense]
  cases t.distributionName? <;> simp [or_assoc]

theorem not_any_logicalName_iff {t : Ttc} :
    t.distributionName?.any Distribution.logicalName = false ↔
      t.distributionName? ≠ some "Enabled" ∧ t.distributionName? ≠ some "Disabled" := by
  cases t.distributionName? <;> simp [Distribution.logicalName]

/-- The rules for the time of each kind of step together. -/
theorem ttcErrors_eq_nil_iff :
    s.ttcErrors asset = [] ↔
      (s.kind = .defense → ∀ t, s.ttc = some t →
        ∃ name ∈ ["Enabled", "Disabled", "Bernoulli"], t.distributionName? = some name) ∧
      (s.kind = .allOf ∨ s.kind = .anyOf → ∀ t, s.ttc = some t →
        t.distributionName? ≠ some "Enabled" ∧ t.distributionName? ≠ some "Disabled") ∧
      (¬ s.kind.isExistence → ∀ t, s.ttc = some t → t.Legal) := by
  rw [ttcErrors]
  cases s.ttc with
  | none => simp
  | some t =>
      cases s.kind with
      | existence | absence => simp [StepKind.isExistence]
      | defense =>
          simp only [reduceCtorEq, false_or, Option.some.injEq, forall_eq', true_implies,
            ← allowedOnDefense_iff, ← Ttc.errors_eq_nil_iff_legal]
          cases t.allowedOnDefense <;> simp [StepKind.isExistence]
      | allOf | anyOf =>
          simp only [Option.some.injEq, forall_eq', ← not_any_logicalName_iff,
            ← Ttc.errors_eq_nil_iff_legal, List.append_eq_nil_iff]
          cases t.distributionName?.any Distribution.logicalName <;> simp [StepKind.isExistence]

/-- The checks of a step by itself find nothing exactly if it is legal. -/
theorem errors_ofStep_eq_nil_iff {s : AttackStep} :
    (ofStep s).existenceErrors ++ (ofStep s).classificationErrors asset ++
      (ofStep s).ttcErrors asset = [] ↔ s.Legal := by
  rw [List.append_eq_nil_iff, List.append_eq_nil_iff, existenceErrors_eq_nil_iff,
    classificationErrors_eq_nil_iff, ttcErrors_eq_nil_iff]
  constructor
  · rintro ⟨⟨⟨existence, requires⟩, classification⟩, defense, attack, time⟩
    refine ⟨existence, requires, classification, defense, attack, fun t ht => ?_⟩
    by_cases hk : s.kind.isExistence
    · cases (existence hk).2.symm.trans ht
    · exact time hk t ht
  · intro legal
    exact ⟨⟨⟨legal.existence, legal.requires⟩, legal.classification⟩, legal.defense, legal.attack,
      fun _ => legal.time⟩

end StepEntry

end MetaAttack
