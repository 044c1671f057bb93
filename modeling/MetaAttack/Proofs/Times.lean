import MetaAttack.Proofs.Findings
import MetaAttack.Proofs.StepRules

/-!
# What is reported about times

A time to compromise is judged distribution by distribution, from left to right, and each of them
by five rules in a fixed order. The walk down the expression carries two flags; here the rules speak
of the operators that stand above a distribution, and every rule that is broken is reported exactly
once.

`Ttc.errorsAsking` is the same judgement where the answers about ranges come from a function that
need not answer everything. That no answer is missed shows that a range is only asked about
parameters of the right number, so reading them by position is safe.
-/

namespace MetaAttack

namespace Ttc

/-! ### Distributions in an expression -/

/-- A distribution in an expression. `path` holds the operators that it stands below, the outermost
first. -/
structure Leaf where
  name : String
  params : List Float
  span : Span
  path : List TtcOp

/-- The distributions of an expression that stands below the operators `above`, from left to
right. -/
def leaves (above : List TtcOp) : Ttc → List Leaf
  | number _ _ => []
  | distribution n ps s => [⟨n.name, ps, s, above⟩]
  | binary op l r _ => l.leaves (above ++ [op]) ++ r.leaves (above ++ [op])

/-- What a distribution has to satisfy, in the order in which it is looked at. -/
inductive Rule
  | supported
  | arity
  | range
  | unrestricted
  | unswitched
deriving DecidableEq, Repr

def Rule.all : List Rule := [.supported, .arity, .range, .unrestricted, .unswitched]

/-- The distribution breaks the rule, which is reported by the error. -/
inductive Leaf.Breaks (l : Leaf) : Rule → SemanticError → Prop
  | supported (unknown : ∀ d ∈ Distribution.all, d.name ≠ l.name) :
      Breaks l .supported (.unsupportedDistribution l.name l.span)
  | arity {d} (known : d ∈ Distribution.all) (name : d.name = l.name)
      (other : l.params.length ≠ d.params.length) :
      Breaks l .arity (.distributionArity l.name d.params.length l.params.length l.span)
  | range {d r} (known : d ∈ Distribution.all) (name : d.name = l.name)
      (arity : l.params.length = d.params.length) (range : d.range = some r)
      (fails : r.holds l.params = false) :
      Breaks l .range (.distributionRange l.name r.requirement l.span)
  | unrestricted (value : l.name = "Bernoulli" ∨ l.name = "EasyAndUncertain")
      (below : ∃ op ∈ l.path, op = .sub ∨ op = .div ∨ op = .pow) :
      Breaks l .unrestricted (.restrictedOperand l.name l.span)
  | unswitched (switch : l.name = "Enabled" ∨ l.name = "Disabled") (below : l.path ≠ []) :
      Breaks l .unswitched (.logicalOperand l.name l.span)

/-- The distributions, each with these rules in turn. -/
def judged (rules : List Rule) (ls : List Leaf) : List (Leaf × Rule) :=
  ls.flatMap fun l => rules.map fun r => (l, r)

/-- The errors are exactly what the rules, in turn, say of the distributions, one by one. -/
abbrev Reports (rules : List Rule) (ls : List Leaf) (es : List SemanticError) : Prop :=
  Findings (fun x : Leaf × Rule => x.1.Breaks x.2) (judged rules ls) es

theorem Reports.append {rules : List Rule} {ls ms : List Leaf} {es fs : List SemanticError}
    (h : Reports rules ls es) (h' : Reports rules ms fs) : Reports rules (ls ++ ms) (es ++ fs) := by
  rw [Reports, judged, List.flatMap_append]
  exact Findings.append h h'

/-- More rules come behind those that a distribution was judged by. -/
theorem Reports.also {rules more : List Rule} {l : Leaf} {es fs : List SemanticError}
    (h : Reports rules [l] es) (h' : Reports more [l] fs) :
    Reports (rules ++ more) [l] (es ++ fs) := by
  have judged_append : judged (rules ++ more) [l] = judged rules [l] ++ judged more [l] := by
    simp [judged]
  rw [Reports, judged_append]
  exact Findings.append h h'

/-! ### One distribution -/

theorem timesOnly_iff {op : TtcOp} : op.timesOnly = true ↔ op = .sub ∨ op = .div ∨ op = .pow := by
  cases op <;> simp [TtcOp.timesOnly]

theorem restricts_iff {above : List TtcOp} :
    above.any TtcOp.timesOnly = true ↔ ∃ op ∈ above, op = .sub ∨ op = .div ∨ op = .pow := by
  simp only [List.any_eq_true, timesOnly_iff]

namespace Leaf

variable {l : Leaf} {d : Distribution} {e : SemanticError}

theorem unique_of_name {d' : Distribution} (known : d ∈ Distribution.all) (name : d.name = l.name)
    (known' : d' ∈ Distribution.all) (name' : d'.name = l.name) : d' = d := by
  have found := Distribution.find?_eq_some_iff.mpr ⟨known, name⟩
  have found' := Distribution.find?_eq_some_iff.mpr ⟨known', name'⟩
  exact Option.some.inj (found'.symm.trans found)

theorem unknown_of_find?_none (none : Distribution.find? l.name = none) :
    ∀ d ∈ Distribution.all, d.name ≠ l.name := by
  intro d known name
  cases none.symm.trans (Distribution.find?_eq_some_iff.mpr ⟨known, name⟩)

theorem not_breaks_supported (known : d ∈ Distribution.all) (name : d.name = l.name) :
    ¬ l.Breaks .supported e := by
  intro broken
  cases broken with
  | supported unknown => exact unknown d known name

theorem breaks_arity_iff (known : d ∈ Distribution.all) (name : d.name = l.name) :
    l.Breaks .arity e ↔ l.params.length ≠ d.params.length ∧
      e = .distributionArity l.name d.params.length l.params.length l.span := by
  constructor
  · intro broken
    cases broken with
    | arity known' name' other =>
        obtain rfl := unique_of_name known name known' name'
        exact ⟨other, rfl⟩
  · rintro ⟨other, rfl⟩
    exact .arity known name other

theorem breaks_range_iff (known : d ∈ Distribution.all) (name : d.name = l.name) :
    l.Breaks .range e ↔ l.params.length = d.params.length ∧
      ∃ r, d.range = some r ∧ r.holds l.params = false ∧
        e = .distributionRange l.name r.requirement l.span := by
  constructor
  · intro broken
    cases broken with
    | range known' name' arity range fails =>
        obtain rfl := unique_of_name known name known' name'
        exact ⟨arity, _, range, fails, rfl⟩
  · rintro ⟨arity, r, range, fails, rfl⟩
    exact .range known name arity range fails

/-- There is one way to report that a rule is broken. -/
theorem Breaks.unique {r : Rule} {e' : SemanticError} (h : l.Breaks r e) (h' : l.Breaks r e') :
    e = e' := by
  cases h with
  | supported => cases h' with | supported => rfl
  | arity known name =>
      obtain ⟨_, rfl⟩ := (breaks_arity_iff known name).mp h'
      rfl
  | range known name _ range =>
      obtain ⟨_, _, range', _, rfl⟩ := (breaks_range_iff known name).mp h'
      obtain rfl := Option.some.inj (range.symm.trans range')
      rfl
  | unrestricted => cases h' with | unrestricted => rfl
  | unswitched => cases h' with | unswitched => rfl

/-- Number and range are judged by the one distribution that has the name. -/
theorem reports_parameters (known : d ∈ Distribution.all) (name : d.name = l.name) :
    Reports [.arity, .range] [l] (leafErrors l.name l.params l.span) := by
  rw [leafErrors, Distribution.find?_eq_some_iff.mpr ⟨known, name⟩]
  dsimp only
  split
  · next other =>
    refine .found (.arity known name other) (.clean ?_ .nil)
    intro e broken
    exact other ((breaks_range_iff known name).mp broken).1
  · next arity =>
    have arity : l.params.length = d.params.length := not_ne_iff.mp arity
    refine .clean (fun e broken => ((breaks_arity_iff known name).mp broken).1 arity) ?_
    cases range : d.range with
    | none =>
        refine .clean ?_ .nil
        intro e broken
        obtain ⟨_, r, range', _⟩ := (breaks_range_iff known name).mp broken
        cases range.symm.trans range'
    | some r =>
        dsimp only
        rw [← ite_not]
        apply Findings.of_ite
        intro e
        rw [breaks_range_iff known name, range, Bool.not_eq_true]
        simp [arity]

theorem reports_itself (l : Leaf) :
    Reports [.supported, .arity, .range] [l] (leafErrors l.name l.params l.span) := by
  cases found : Distribution.find? l.name with
  | some d =>
      obtain ⟨known, name⟩ := Distribution.find?_eq_some_iff.mp found
      exact .clean (fun e => not_breaks_supported known name) (reports_parameters known name)
  | none =>
      have unknown := unknown_of_find?_none found
      rw [leafErrors, found]
      refine .found (.supported unknown) (.clean ?_ (.clean ?_ .nil))
      · intro e broken
        cases broken with
        | arity known name _ => exact unknown _ known name
      · intro e broken
        cases broken with
        | range known name _ _ _ => exact unknown _ known name

theorem breaks_unrestricted_iff :
    l.Breaks .unrestricted e ↔ ((l.name = "Bernoulli" ∨ l.name = "EasyAndUncertain") ∧
      l.path.any TtcOp.timesOnly = true) ∧ e = .restrictedOperand l.name l.span := by
  rw [restricts_iff]
  constructor
  · intro broken
    cases broken with
    | unrestricted value below => exact ⟨⟨value, below⟩, rfl⟩
  · rintro ⟨⟨value, below⟩, rfl⟩
    exact .unrestricted value below

theorem breaks_unswitched_iff :
    l.Breaks .unswitched e ↔ ((l.name = "Enabled" ∨ l.name = "Disabled") ∧ l.path ≠ []) ∧
      e = .logicalOperand l.name l.span := by
  constructor
  · intro broken
    cases broken with
    | unswitched switch below => exact ⟨⟨switch, below⟩, rfl⟩
  · rintro ⟨⟨switch, below⟩, rfl⟩
    exact .unswitched switch below

/-- The flags that are handed down to a distribution tell what its path holds. -/
theorem reports_place (l : Leaf) :
    Reports [.unrestricted, .unswitched] [l]
      (placeErrors (l.path.any TtcOp.timesOnly) (!l.path.isEmpty) l.name l.span) := by
  rw [placeErrors]
  cases found : Distribution.find? l.name with
  | none =>
      -- the names that these two rules are about are in the table
      have unknown := unknown_of_find?_none found
      have others : ¬ (l.name = "Bernoulli" ∨ l.name = "EasyAndUncertain") ∧
          ¬ (l.name = "Enabled" ∨ l.name = "Disabled") := by
        simp [Distribution.all, Distribution.constant, eq_comm] at unknown ⊢
        tauto
      refine .clean ?_ (.clean ?_ .nil)
      · exact fun e broken => others.1 (breaks_unrestricted_iff.mp broken).1.1
      · exact fun e broken => others.2 (breaks_unswitched_iff.mp broken).1.1
  | some d =>
      obtain ⟨_, name⟩ := Distribution.find?_eq_some_iff.mp found
      have value : Reports [.unrestricted] [l]
          (if (l.path.any TtcOp.timesOnly && d.isValueOnly) = true then
            [.restrictedOperand l.name l.span] else []) := by
        refine Findings.of_ite fun e => ?_
        rw [breaks_unrestricted_iff]
        simp [Distribution.isValueOnly, name, and_comm]
      have switch : Reports [.unswitched] [l]
          (if (!l.path.isEmpty && d.isLogical) = true then [.logicalOperand l.name l.span]
            else []) := by
        refine Findings.of_ite fun e => ?_
        rw [breaks_unswitched_iff]
        simp [Distribution.isLogical, Distribution.logicalName, name, and_comm]
      exact value.also switch

/-- A distribution is judged by its name and parameters first, and then by its place. -/
theorem reports (l : Leaf) :
    Reports Rule.all [l] (leafErrors l.name l.params l.span ++
      placeErrors (l.path.any TtcOp.timesOnly) (!l.path.isEmpty) l.name l.span) :=
  l.reports_itself.also l.reports_place

end Leaf

/-! ### Expressions -/

/-- Below the operators `above`, the flags that the walk has come to are those of the paths. -/
theorem reports_errors (t : Ttc) (above : List TtcOp) :
    Reports Rule.all (t.leaves above) (t.errors (above.any TtcOp.timesOnly) (!above.isEmpty)) := by
  induction t generalizing above with
  | number _ _ => exact .nil
  | distribution n ps s => exact Leaf.reports ⟨n.name, ps, s, above⟩
  | binary op l r s ihl ihr =>
      have restricted : (above ++ [op]).any TtcOp.timesOnly =
          (above.any TtcOp.timesOnly || op.timesOnly) := by simp
      have operand : (!(above ++ [op]).isEmpty) = true := by simp
      have left := ihl (above ++ [op])
      have right := ihr (above ++ [op])
      rw [restricted, operand] at left right
      exact left.append right

theorem prefix_path {t : Ttc} {above : List TtcOp} {l : Leaf} (h : l ∈ t.leaves above) :
    above <+: l.path := by
  induction t generalizing above with
  | number _ _ => cases h
  | distribution n ps s =>
      obtain rfl := List.mem_singleton.mp h
      exact List.prefix_rfl
  | binary op left right s ihl ihr =>
      apply (List.prefix_append above [op]).trans
      rcases List.mem_append.mp h with h | h
      · exact ihl h
      · exact ihr h

/-- Only a distribution that is the whole expression stands below no operator. -/
theorem path_eq_nil_iff {t : Ttc} {l : Leaf} (h : l ∈ t.leaves []) :
    l.path = [] ↔ t.distributionName? = some l.name := by
  cases t with
  | number _ _ => cases h
  | distribution n ps s =>
      rw [leaves, List.mem_singleton] at h
      simp [h, distributionName?]
  | binary op left right s =>
      have below : [op] <+: l.path := by
        rcases List.mem_append.mp h with h | h
        · exact prefix_path h
        · exact prefix_path h
      simp only [distributionName?, reduceCtorEq, iff_false]
      intro top
      cases List.prefix_nil.mp (top ▸ below)

end Ttc

/-! ### Asking the ranges -/

/-- Whether the parameters satisfy the requirement, each read by its position when it is needed. -/
def Range.holds? : Range → List Float → Option Bool
  | probability, ps => do return isProbability (← ps[0]?)
  | trials, ps => do
      let n ← ps[0]?
      if 0.0 ≤ n && isWhole n then return isProbability (← ps[1]?) else return false
  | lambda, ps => do return 0.0 < (← ps[0]?)
  | deviation, ps => do return 0.0 < (← ps[1]?)
  | shapeAndScale, ps | minAndShape, ps => do
      let a ← ps[0]?
      if 0.0 < a then return 0.0 < (← ps[1]?) else return false
  | ordered, ps => do return (← ps[0]?) ≤ (← ps[1]?)

/-- The number of parameters that the range is about. -/
def Range.arity : Range → Nat
  | probability | lambda => 1
  | trials | shapeAndScale | deviation | minAndShape | ordered => 2

theorem Distribution.arity_range :
    ∀ d ∈ all, ∀ r, d.range = some r → d.params.length = r.arity := by
  have each : ∀ d ∈ all, ∀ r ∈ d.range, d.params.length = r.arity := by decide
  exact fun d known r range => each d known r range

theorem Range.holds?_eq {r : Range} {ps : List Float} (arity : ps.length = r.arity) :
    r.holds? ps = some (r.holds ps) := by
  cases r with
  | probability | lambda =>
      obtain ⟨p, rfl⟩ := List.length_eq_one_iff.mp arity
      rfl
  | deviation | ordered =>
      obtain ⟨p, q, rfl⟩ := List.length_eq_two.mp arity
      rfl
  | trials =>
      obtain ⟨n, p, rfl⟩ := List.length_eq_two.mp arity
      have both : ∀ c x : Bool, (if c then some x else some false) = some (c && x) := by decide
      exact both (0.0 ≤ n && isWhole n) (isProbability p)
  | shapeAndScale | minAndShape =>
      obtain ⟨a, b, rfl⟩ := List.length_eq_two.mp arity
      by_cases positive : 0.0 < a <;> simp [holds?, holds, positive]

/-- The answers of `ask` are those of the ranges where the parameters are as many as a distribution
with the range has; elsewhere there may be none. -/
def Range.Answers (ask : Range → List Float → Option Bool) : Prop :=
  ∀ d ∈ Distribution.all, ∀ r, d.range = some r → ∀ ps, ps.length = d.params.length →
    ask r ps = some (r.holds ps)

theorem Range.answers_holds? : Range.Answers Range.holds? := by
  intro d known r range ps arity
  apply Range.holds?_eq
  exact arity.trans (Distribution.arity_range d known r range)

namespace Ttc

variable {ask : Range → List Float → Option Bool}

/-- The judgement of a distribution that stands alone, where `ask` is asked about its range. -/
def leafErrorsAsking (ask : Range → List Float → Option Bool) (name : String) (params : List Float)
    (span : Span) : Option (List SemanticError) :=
  match Distribution.find? name with
  | none => some [.unsupportedDistribution name span]
  | some d =>
      if params.length ≠ d.params.length then
        some [.distributionArity name d.params.length params.length span]
      else
        match d.range with
        | some r => do
            if ← ask r params then return []
            else return [.distributionRange name r.requirement span]
        | none => some []

/-- The judgement of all distributions of an expression, where `ask` is asked about their ranges.
There is none where one of the answers is missing. -/
def errorsAsking (ask : Range → List Float → Option Bool) (restricted operand : Bool) :
    Ttc → Option (List SemanticError)
  | number _ _ => some []
  | distribution n ps s => do
      return (← leafErrorsAsking ask n.name ps s) ++ placeErrors restricted operand n.name s
  | binary op l r _ => do
      let restricted := restricted || op.timesOnly
      return (← l.errorsAsking ask restricted true) ++ (← r.errorsAsking ask restricted true)

theorem leafErrorsAsking_eq (answers : Range.Answers ask) (name : String) (params : List Float)
    (span : Span) :
    leafErrorsAsking ask name params span = some (leafErrors name params span) := by
  rw [leafErrorsAsking, leafErrors]
  cases found : Distribution.find? name with
  | none => rfl
  | some d =>
      have known := (Distribution.find?_eq_some_iff.mp found).1
      by_cases arity : params.length = d.params.length
      · simp only [arity, ne_eq, not_true_eq_false, if_false]
        cases range : d.range with
        | none => rfl
        | some r =>
            dsimp only
            rw [answers d known r range params arity]
            cases r.holds params <;> rfl
      · simp only [arity, ne_eq, not_false_eq_true, if_true]

/-- Nothing is asked of a range but about as many parameters as belong to it. -/
theorem errorsAsking_eq (answers : Range.Answers ask) (t : Ttc) (restricted operand : Bool) :
    t.errorsAsking ask restricted operand = some (t.errors restricted operand) := by
  induction t generalizing restricted operand with
  | number _ _ => rfl
  | distribution n ps s =>
      rw [errorsAsking, leafErrorsAsking_eq answers]
      rfl
  | binary op l r s ihl ihr =>
      rw [errorsAsking, ihl, ihr]
      rfl

end Ttc

/-! ### Steps -/

theorem Ttc.Reports.unique {rules : List Ttc.Rule} {ls : List Ttc.Leaf} {es fs : List SemanticError}
    (h : Ttc.Reports rules ls es) (h' : Ttc.Reports rules ls fs) : es = fs :=
  Findings.unique (fun _ _ _ broken broken' => broken.unique broken') h h'

namespace StepEntry

/-- What is reported about the time of a step on the asset `asset`. -/
structure TimeJudged (asset : String) (s : StepEntry) : Prop where
  untimed : s.ttc = none → s.ttcErrors asset = []
  attack : ∀ t, s.ttc = some t → s.kind = .allOf ∨ s.kind = .anyOf → ∀ es,
    Ttc.Reports Ttc.Rule.all (t.leaves []) es ↔
      s.ttcErrors asset =
        (if t.distributionName? = some "Enabled" ∨ t.distributionName? = some "Disabled" then
          [.logicalTtcOnAttack t.span] else []) ++ es
  /-- A distribution that a defense may have is judged by its parameters only. -/
  defense : ∀ n ps span, s.ttc = some (.distribution n ps span) → s.kind = .defense →
    n.name ∈ ["Enabled", "Disabled", "Bernoulli"] → ∀ es,
      Ttc.Reports [.arity, .range] [⟨n.name, ps, span, []⟩] es ↔ s.ttcErrors asset = es
  /-- Of any other time of a defense nothing but the time itself is reported. -/
  undefended : ∀ t, s.ttc = some t → s.kind = .defense →
    (∀ n ps span, t = .distribution n ps span → n.name ∉ ["Enabled", "Disabled", "Bernoulli"]) →
      s.ttcErrors asset = [.invalidDefenseTtc asset s.name t.span]
  existence : s.kind = .existence ∨ s.kind = .absence → s.ttcErrors asset = []
  /-- A distribution stands below no operator exactly if it is the whole time. -/
  whole : ∀ t, s.ttc = some t → ∀ l ∈ t.leaves [],
    (l.path = [] ↔ t.distributionName? = some l.name)
  /-- A range is asked about as many parameters as belong to it, or not at all. -/
  asked : ∀ t, s.ttc = some t → ∀ ask, Range.Answers ask →
    t.errorsAsking ask false false = some (t.errors false false)
  /-- So no parameter is read by a position where there is none. -/
  indexed : ∀ t, s.ttc = some t →
    t.errorsAsking Range.holds? false false = some (t.errors false false)

section

variable {asset : String} {s : StepEntry} {t : Ttc}

theorem ttcErrors_of_attack (time : s.ttc = some t) (attack : s.kind = .allOf ∨ s.kind = .anyOf) :
    s.ttcErrors asset =
      (if t.distributionName? = some "Enabled" ∨ t.distributionName? = some "Disabled" then
        [.logicalTtcOnAttack t.span] else []) ++ t.errors false false := by
  have switch : t.distributionName?.any Distribution.logicalName = true ↔
      t.distributionName? = some "Enabled" ∨ t.distributionName? = some "Disabled" := by
    cases t.distributionName? <;> simp [Distribution.logicalName]
  rw [ttcErrors, time]
  rcases attack with kind | kind
  · simp only [kind, switch]
  · simp only [kind, switch]

theorem ttcErrors_of_defense (time : s.ttc = some t) (defense : s.kind = .defense) :
    s.ttcErrors asset =
      if t.allowedOnDefense then t.errors false false
      else [.invalidDefenseTtc asset s.name t.span] := by
  rw [ttcErrors, time, defense]

/-- Below no operator a distribution is in a place that is right for it. -/
theorem placeErrors_of_top (name : String) (span : Span) :
    Ttc.placeErrors false false name span = [] := by
  rw [Ttc.placeErrors]
  cases Distribution.find? name <;> rfl

theorem ttcErrors_of_allowed {n : Ident} {ps : List Float} {span : Span}
    (time : s.ttc = some (.distribution n ps span)) (defense : s.kind = .defense)
    (allowed : n.name ∈ ["Enabled", "Disabled", "Bernoulli"]) :
    s.ttcErrors asset = Ttc.leafErrors n.name ps span := by
  rw [ttcErrors_of_defense time defense, if_pos (allowedOnDefense_iff.mpr ⟨_, allowed, rfl⟩),
    Ttc.errors, placeErrors_of_top, List.append_nil]

end

theorem timeJudged (asset : String) (s : StepEntry) : s.TimeJudged asset where
  untimed := by
    intro untimed
    rw [ttcErrors, untimed]
  attack := by
    intro t time attack es
    rw [ttcErrors_of_attack time attack, List.append_cancel_left_eq]
    have all := t.reports_errors []
    constructor
    · exact all.unique
    · rintro rfl
      exact all
  defense := by
    intro n ps span time defense allowed es
    have supported : ∀ name ∈ ["Enabled", "Disabled", "Bernoulli"],
        ∃ d ∈ Distribution.all, d.name = name := by decide
    obtain ⟨d, known, name⟩ := supported n.name allowed
    have parameters := Ttc.Leaf.reports_parameters (l := ⟨n.name, ps, span, []⟩) known name
    rw [ttcErrors_of_allowed time defense allowed]
    constructor
    · exact parameters.unique
    · rintro rfl
      exact parameters
  undefended := by
    intro t time defense other
    rw [ttcErrors_of_defense time defense, if_neg]
    intro allowed
    obtain ⟨name, hname, same⟩ := allowedOnDefense_iff.mp allowed
    cases t with
    | distribution n ps span =>
        obtain rfl := Option.some.inj same
        exact other n ps span rfl hname
    | number | binary => cases same
  existence := by
    intro existence
    rw [ttcErrors]
    cases s.ttc with
    | none => rfl
    | some t =>
        rcases existence with kind | kind
        · rw [kind]
        · rw [kind]
  whole := fun _ _ _ => Ttc.path_eq_nil_iff
  asked := fun t _ _ answers => t.errorsAsking_eq answers false false
  indexed := fun t _ => t.errorsAsking_eq Range.answers_holds? false false

end StepEntry

end MetaAttack
