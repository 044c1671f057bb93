import Mathlib.Data.List.Chain
import Mathlib.Data.List.Count
import Mathlib.Data.List.Nodup
import MetaAttack.Proofs.Findings
import MetaAttack.Proofs.Roots
import MetaAttack.Proofs.Tables

/-!
# Loops of extensions

An asset that extends itself over other assets lies on a loop. The loops of a registry are reported
once each, in the order of their first declared members, and each with all of its members in the
order in which one extends the next.

## Implementation notes

A loop has no beginning, so `Schema.LoopFrom` fixes the member that its list starts at. That no loop
is reported twice is a count over the reports: every asset on a loop is listed by one of them.
-/

namespace MetaAttack

open Relation

namespace Schema

/-- The assets on a loop, from one of them on by following parents until it would come again. -/
structure LoopFrom (S : Schema) (n : String) (ms : List String) : Prop where
  start : ms.head? = some n
  distinct : ms.Nodup
  around : (ms ++ [n]).IsChain S.Extends

namespace LoopFrom

variable {S : Schema} {n m p : String} {ms : List String}

theorem mem_start (h : S.LoopFrom n ms) : n ∈ ms := List.mem_of_head? h.start

/-- What a member extends is a member. -/
theorem closed (hS : S.Coherent) (h : S.LoopFrom n ms) (hm : m ∈ ms) (edge : S.Extends m p) :
    p ∈ ms := by
  obtain ⟨before, after, rfl⟩ := List.append_of_mem hm
  have around := h.around
  rw [List.append_assoc, List.cons_append] at around
  cases after with
  | nil =>
      have next : S.Extends m n := (List.isChain_append_cons_cons.mp around).2.1
      obtain rfl := hS.parent edge.1 next.1
      exact h.mem_start
  | cons q after =>
      have next : S.Extends m q := (List.isChain_append_cons_cons.mp around).2.1
      obtain rfl := hS.parent edge.1 next.1
      simp

/-- The members are the assets that the first one leads to. -/
theorem mem_iff (hS : S.Coherent) (h : S.LoopFrom n ms) : m ∈ ms ↔ S.Descends n m := by
  constructor
  · refine fun hm => h.around.left_of_append.induction (S.Descends n) ms
      (fun _ _ edge path => path.tail edge) (fun hne => ?_) m hm
    rw [(List.head_eq_iff_head?_eq_some hne).mpr h.start]
    exact .refl
  · intro path
    induction path with
    | refl => exact h.mem_start
    | tail _ edge ih => exact h.closed hS ih edge

theorem inherits (h : S.LoopFrom n ms) : S.Inherits n n := by
  have back : ∀ m ∈ ms, S.Descends m n := h.around.backwards_concat_induction (S.Descends · n) ms
    (fun _ _ edge path => path.head edge) .refl
  have around := h.around
  cases ms with
  | nil => cases h.start
  | cons m rest =>
      obtain rfl := Option.some.inj h.start
      cases rest with
      | nil => exact .single (List.isChain_pair.mp around)
      | cons q rest =>
          have edge : S.Extends m q := (List.isChain_cons_cons.mp around).1
          exact TransGen.head' edge (back q (by simp))

theorem inherits_of_mem (hS : S.Coherent) (h : S.LoopFrom n ms) (hm : m ∈ ms) :
    S.Inherits m m := by
  have path := (h.mem_iff hS).mp hm
  have back := h.inherits.back hS path
  exact (TransGen.trans_right back h.inherits).trans_left path

end LoopFrom

end Schema

namespace Registry

variable {R : Registry} {seen ns : List String} {n : String} {a : AssetEntry}

/-! ### The chain of an asset on a loop -/

theorem asset?_of_mem_head?_climb (h : a ∈ (climb (R.beyond seen) n).head?) :
    R.asset? n = some a := by
  by_cases hn : n ∈ seen ∨ R.asset? n = none
  · rw [climb_of_passed hn] at h
    cases h
  · obtain ⟨fresh, known⟩ := not_or.mp hn
    obtain ⟨b, hb⟩ := Option.ne_none_iff_exists'.mp known
    rw [climb_of_asset fresh hb, List.head?_cons] at h
    obtain rfl : b = a := Option.some.inj h
    exact hb

theorem isChain_climb (R : Registry) (seen : List String) (n : String) :
    ((climb (R.beyond seen) n).map AssetEntry.name).IsChain R.schema.Extends := by
  induction seen, n using climb_induction (R := R) with
  | passed seen n hn =>
      rw [climb_of_passed hn]
      exact .nil
  | top seen n a hn ha hp =>
      rw [climb_of_top hn ha hp]
      exact .singleton _
  | child seen n a p hn ha hp ih =>
      rw [climb_of_child hn ha hp, List.map_cons]
      refine ih.cons fun m hm => ?_
      rw [List.head?_map] at hm
      obtain ⟨b, hb, rfl⟩ := Option.map_eq_some_iff.mp hm
      have hb := asset?_of_mem_head?_climb hb
      rw [name_of_asset? ha, name_of_asset? hb]
      exact ⟨schema_parent_of_some ha hp, b, hb⟩

theorem nodup_climb (R : Registry) (seen : List String) (n : String) :
    ((climb (R.beyond seen) n).map AssetEntry.name).Nodup := by
  induction seen, n using climb_induction (R := R) with
  | passed seen n hn =>
      rw [climb_of_passed hn]
      exact List.nodup_nil
  | top seen n a hn ha hp =>
      rw [climb_of_top hn ha hp]
      exact List.nodup_singleton _
  | child seen n a p hn ha hp ih =>
      rw [climb_of_child hn ha hp, List.map_cons, name_of_asset? ha]
      refine List.nodup_cons.mpr ⟨fun hmem => ?_, ih⟩
      obtain ⟨b, hb, same⟩ := List.mem_map.mp hmem
      exact not_mem_seen_of_mem_climb hb (same ▸ List.mem_cons_self)

/-- From an asset on a loop the walk upward goes around the loop. -/
theorem loopFrom_ancestors (loop : R.schema.Inherits n n) :
    R.schema.LoopFrom n ((R.ancestors n).map AssetEntry.name) := by
  obtain ⟨_, edge, _⟩ := TransGen.head'_iff.mp loop
  obtain ⟨a, ha⟩ := R.schema_coherent.known edge.1
  -- The walk ends at the asset that extends the one it started from.
  obtain ⟨last, hlast, hend⟩ := Option.bind_eq_some_iff.mp (chainEnd?_of_loop loop)
  obtain ⟨p, hp, rfl⟩ := Option.map_eq_some_iff.mp hend
  rw [ancestors_eq] at hlast ⊢
  constructor
  · rw [climb_of_asset List.not_mem_nil ha, List.map_cons, List.head?_cons, name_of_asset? ha]
  · exact R.nodup_climb [] p.name
  · refine (R.isChain_climb [] p.name).append (.singleton _) fun m hm q hq => ?_
    rw [List.getLast?_map, hlast] at hm
    obtain rfl : last.name = m := Option.some.inj hm
    obtain rfl : p.name = q := Option.some.inj hq
    have known := asset?_of_mem_climb (List.mem_of_getLast? hlast)
    exact ⟨schema_parent_of_some known hp, a, ha⟩

/-! ### First members -/

/-- Of the assets with these names this one is declared first. -/
def DeclaredFirst (R : Registry) (ns : List String) (a : AssetEntry) : Prop :=
  a.name ∈ ns ∧ ∃ before after, R.assets.entries = before ++ a :: after ∧ ∀ b ∈ before, b.name ∉ ns

theorem declaredFirst_iff :
    R.DeclaredFirst ns a ↔ (R.assets.entries.find? fun b => ns.contains b.name) = some a := by
  rw [List.find?_eq_some_iff_append]
  simp [DeclaredFirst]

/-- Whichever member a loop is listed from, the same one is declared first. -/
theorem DeclaredFirst.of_loopFrom {m : String} {ms : List String} (h : R.DeclaredFirst ns a)
    (around : R.schema.LoopFrom n ns) (around' : R.schema.LoopFrom m ms)
    (path : R.schema.Descends n m) : R.DeclaredFirst ms a := by
  have same : ∀ k, k ∈ ms ↔ k ∈ ns := by
    intro k
    rw [around.mem_iff R.schema_coherent, around'.mem_iff R.schema_coherent]
    exact ⟨path.trans, (around.inherits.back R.schema_coherent path).trans⟩
  simpa only [DeclaredFirst, same] using h

theorem DeclaredFirst.unique {b : AssetEntry} (h : R.DeclaredFirst ns a)
    (h' : R.DeclaredFirst ns b) : a = b :=
  Option.some.inj ((declaredFirst_iff.mp h).symm.trans (declaredFirst_iff.mp h'))

/-- Nothing that is declared before the first one is among them. -/
theorem DeclaredFirst.not_mem {before after : List AssetEntry} (h : R.DeclaredFirst ns a)
    (entries : R.assets.entries = before ++ a :: after) : ∀ b ∈ before, b.name ∉ ns := by
  intro b hb hmem
  have first := declaredFirst_iff.mp h
  have early : (before.find? fun b => ns.contains b.name).isSome := by
    rw [List.find?_isSome]
    exact ⟨b, hb, by simpa using hmem⟩
  obtain ⟨c, hc⟩ := Option.isSome_iff_exists.mp early
  rw [entries, List.find?_append, hc, Option.some_or] at first
  obtain rfl := Option.some.inj first
  have nodup : (before ++ c :: after).Nodup := entries ▸ .of_map _ R.assets.nodup
  exact (List.nodup_append.mp nodup).2.2 c (List.mem_of_find?_eq_some hc) c List.mem_cons_self rfl

/-- On every loop some asset is declared first. -/
theorem exists_declaredFirst (loop : R.schema.Inherits n n) :
    ∃ a ∈ R.assets.entries, R.schema.Descends n a.name ∧
      ∃ ms, R.schema.LoopFrom a.name ms ∧ R.DeclaredFirst ms a := by
  have around := loopFrom_ancestors loop
  obtain ⟨b, hb⟩ := loop.asset R.schema_coherent
  have some : (R.assets.entries.find? fun b =>
      ((R.ancestors n).map AssetEntry.name).contains b.name).isSome := by
    rw [List.find?_isSome]
    refine ⟨b, mem_of_asset? hb, ?_⟩
    rw [List.contains_iff_mem, name_of_asset? hb]
    exact around.mem_start
  obtain ⟨a, ha⟩ := Option.isSome_iff_exists.mp some
  have first := declaredFirst_iff.mpr ha
  have path := (around.mem_iff R.schema_coherent).mp first.1
  have around' := loopFrom_ancestors (around.inherits_of_mem R.schema_coherent first.1)
  exact ⟨a, List.mem_of_find?_eq_some ha, path, _, around', first.of_loopFrom around around' path⟩

/-! ### The search -/

/-- The name is that of an asset on a loop through one of these assets. -/
def LoopsThrough (R : Registry) (as : List AssetEntry) (n : String) : Prop :=
  ∃ b ∈ as, R.schema.Inherits b.name b.name ∧ R.schema.Descends b.name n

theorem loopsThrough_concat {as : List AssetEntry} :
    R.LoopsThrough (as ++ [a]) n ↔
      R.LoopsThrough as n ∨ R.schema.Inherits a.name a.name ∧ R.schema.Descends a.name n := by
  simp only [LoopsThrough, List.mem_append, List.mem_singleton, or_and_right, exists_or,
    exists_eq_left]

/-- The loop of the asset is found at it, which is the first declared member. -/
def FindsLoop (R : Registry) (a : AssetEntry) (l : AssetEntry × List AssetEntry) : Prop :=
  l.1 = a ∧ R.schema.LoopFrom a.name (l.2.map AssetEntry.name) ∧
    R.DeclaredFirst (l.2.map AssetEntry.name) a

/-- Where all loops through the assets that come before are reported, and no others, the search
finds the loops whose first members are among the remaining ones. -/
theorem findings_loopsAmong {reported : List String} {before as : List AssetEntry}
    (entries : R.assets.entries = before ++ as)
    (reports : ∀ n, n ∈ reported ↔ R.LoopsThrough before n) :
    Findings R.FindsLoop as (R.loopsAmong reported as) := by
  induction as generalizing before reported with
  | nil => exact .nil
  | cons a as ih =>
      have entries' : R.assets.entries = (before ++ [a]) ++ as := by
        rw [entries, List.append_assoc, List.singleton_append]
      by_cases old : a.name ∈ reported
      · obtain ⟨b, hb, loop, path⟩ := (reports _).mp old
        rw [loopsAmong_cons_of_reported as old]
        refine .clean ?_ (ih entries' fun n => ?_)
        · rintro l ⟨_, around, first⟩
          refine first.not_mem entries b hb ?_
          rw [around.mem_iff R.schema_coherent]
          exact loop.back R.schema_coherent path
        · rw [loopsThrough_concat, ← reports]
          refine (or_iff_left_of_imp fun ⟨_, path'⟩ => ?_).symm
          exact (reports n).mpr ⟨b, hb, loop, path.trans path'⟩
      · by_cases loop : R.schema.Inherits a.name a.name
        · have around := loopFrom_ancestors loop
          rw [loopsAmong_cons_of_found as old (chainEnd?_of_loop loop)]
          refine .found ⟨rfl, around, around.mem_start, before, as, entries, ?_⟩
            (ih entries' fun n => ?_)
          · -- A loop that came up before would have been reported with this asset on it.
            intro b hb hmem
            have path := (around.mem_iff R.schema_coherent).mp hmem
            have loop' := around.inherits_of_mem R.schema_coherent hmem
            exact old ((reports _).mpr ⟨b, hb, loop', loop.back R.schema_coherent path⟩)
          · rw [loopsThrough_concat, List.mem_append, reports, around.mem_iff R.schema_coherent,
              and_iff_right loop]
        · have clean : R.chainEnd? a.name ≠ some a.name := mt inherits_of_chainEnd? loop
          rw [loopsAmong_cons_of_clean as clean]
          refine .clean ?_ (ih entries' fun n => ?_)
          · rintro l ⟨_, around, _⟩
            exact loop around.inherits
          · rw [loopsThrough_concat, ← reports, or_iff_left (mt And.left loop)]

theorem findings_loops (R : Registry) : Findings R.FindsLoop R.assets.entries R.loops := by
  have all : R.assets.entries = [] ++ R.assets.entries := rfl
  exact findings_loopsAmong all fun n => by simp [LoopsThrough]

end Registry

/-! ### Reports -/

/-- The assets of the loop that is reported, the first one once. -/
def SemanticError.loop : SemanticError → List String
  | .extendsLoop _ chain _ => chain.dropLast
  | _ => []

namespace Registry

variable {R : Registry} {n : String} {a : AssetEntry}

/-- The loop of the asset is reported at it: it is the first declared member, and the chain follows
parents from it through all members and back. -/
def ReportsLoop (R : Registry) (a : AssetEntry) (e : SemanticError) : Prop :=
  ∃ ms, R.schema.LoopFrom a.name ms ∧ R.DeclaredFirst ms a ∧
    e = .extendsLoop a.name (ms ++ [a.name]) a.span

theorem findings_loopErrors (R : Registry) :
    Findings R.ReportsLoop R.assets.entries R.loopErrors := by
  refine R.findings_loops.map ?_ ?_
  · rintro a ⟨_, path⟩ ⟨rfl, around, first⟩
    exact ⟨_, around, first, rfl⟩
  · rintro a e ⟨ms, around, first, _⟩
    have around' := loopFrom_ancestors around.inherits
    exact ⟨(a, R.ancestors a.name), rfl, around', first.of_loopFrom around around' .refl⟩

/-- A report of a loop lists the assets on it. -/
theorem mem_loop_iff {e : SemanticError} {ms : List String} (loop : R.schema.LoopFrom a.name ms)
    (he : e = .extendsLoop a.name (ms ++ [a.name]) a.span) :
    n ∈ e.loop ↔ R.schema.Descends a.name n := by
  rw [he, SemanticError.loop, List.dropLast_concat, loop.mem_iff R.schema_coherent]

/-- What is reported of the loops of extensions. -/
structure LoopsReported (R : Registry) (es : List SemanticError) : Prop where
  /-- In the order of declaration, one report at each asset that is the first of a loop. -/
  findings : Findings R.ReportsLoop R.assets.entries es
  /-- A list of a loop has all assets that lie on it. -/
  members : ∀ n ms, R.schema.LoopFrom n ms →
    ∀ m, m ∈ ms ↔ R.schema.Descends n m ∧ R.schema.Descends m n
  /-- Every asset on a loop is listed by one report. -/
  once : ∀ n, R.schema.Inherits n n → es.countP (fun e => n ∈ e.loop) = 1
  /-- No other asset is listed, also where its chain runs into a loop. -/
  outside : ∀ n, ¬ R.schema.Inherits n n → ∀ e ∈ es, n ∉ e.loop

/-- The loops of extensions are reported once each, from the first declared member on. -/
theorem loopsReported (R : Registry) : R.LoopsReported R.loopErrors where
  findings := R.findings_loopErrors
  members := by
    intro n ms loop m
    rw [loop.mem_iff R.schema_coherent]
    exact ⟨fun path => ⟨path, loop.inherits.back R.schema_coherent path⟩, And.left⟩
  once := by
    intro n loop
    obtain ⟨a, ha, path, ms, from_a, first⟩ := exists_declaredFirst loop
    refine R.findings_loopErrors.countP_eq_one (.of_map _ R.assets.nodup) ha
      ⟨_, ms, from_a, first, rfl⟩ ?_
    rintro b hb e ⟨ns, from_b, first', he⟩
    rw [decide_eq_true_eq, mem_loop_iff from_b he]
    constructor
    · intro path'
      exact (first'.of_loopFrom from_b from_a (path'.trans path)).unique first
    · rintro rfl
      exact loop.back R.schema_coherent path
  outside := by
    intro n outside e he hn
    obtain ⟨a, _, ms, loop, _, he⟩ := R.findings_loopErrors.exists_of_mem he
    rw [mem_loop_iff loop he, ← loop.mem_iff R.schema_coherent] at hn
    exact outside (loop.inherits_of_mem R.schema_coherent hn)

end Registry

end MetaAttack
