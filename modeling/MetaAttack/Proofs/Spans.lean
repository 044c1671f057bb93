import Mathlib.Order.MinMax
import MetaAttack.Proofs.AlikeSpecs
import MetaAttack.Proofs.Scanning
import MetaAttack.Proofs.Soundness

/-!
# Spans in a specification

Every span in a specification is that of a lexeme, or is merged from spans of lexemes. So what holds
of the spans of lexemes and is kept by merging holds of every span, down to the last name: it starts
where a lexeme starts and stops where one stops.

## Implementation notes

That readers make no spans of their own is what relocation tells. Looked at in two ways that differ
on every span without the property, a specification that is read from lexemes with it looks the
same.
-/

namespace MetaAttack

/-! ### All spans -/

/-- The spans in each thing that is read: its own, and those of all its parts. -/
def Ident.spans (n : Ident) : List Span := [n.span]

/-- The span of an expression first, then those of its operands from left to right. -/
def Expr.spans : Expr → List Span
  | field n s | call n s => s :: n.spans
  | collect l r s | combine _ l r s => s :: (l.spans ++ r.spans)
  | closure e s => s :: e.spans
  | restrict e a s => s :: (e.spans ++ a.spans)

/-- Parameters have no spans. -/
def Ttc.spans : Ttc → List Span
  | number _ s => [s]
  | distribution n _ s => s :: n.spans
  | binary _ l r s => s :: (l.spans ++ r.spans)

/-- The text of a remark has no span of its own. -/
def Remark.spans (r : Remark) : List Span := r.span :: r.key.spans

/-- Letters have no spans of their own. -/
def Classification.spans (c : Classification) : List Span := [c.span]

def Requires.spans (q : Requires) : List Span := q.span :: q.exprs.flatMap Expr.spans

def Reaches.spans (q : Reaches) : List Span := q.span :: q.exprs.flatMap Expr.spans

/-- All parts of a step that carry spans, those that may be missing included. -/
def AttackStep.spans (s : AttackStep) : List Span :=
  s.span :: (s.name.spans ++ s.tags.flatMap Ident.spans ++
    s.cia.toList.flatMap Classification.spans ++ s.ttc.toList.flatMap Ttc.spans ++
    s.remarks.flatMap Remark.spans ++ s.requires.toList.flatMap Requires.spans ++
    s.reaches.toList.flatMap Reaches.spans)

def Variable.spans (v : Variable) : List Span := v.span :: (v.name.spans ++ v.expr.spans)

/-- The span of an asset, and those of its name, parent, remarks, steps and variables. -/
def Asset.spans (a : Asset) : List Span :=
  a.span :: (a.name.spans ++ a.parent.toList.flatMap Ident.spans ++
    a.remarks.flatMap Remark.spans ++ a.steps.flatMap AttackStep.spans ++
    a.bindings.flatMap Variable.spans)

/-- With the spans of all assets of the category. -/
def Category.spans (c : Category) : List Span :=
  c.span :: (c.name.spans ++ c.remarks.flatMap Remark.spans ++ c.assets.flatMap Asset.spans)

/-- With the names of both assets and of both fields; bounds have no spans. -/
def Association.spans (a : Association) : List Span :=
  a.span :: (a.leftAsset.spans ++ a.leftField.spans ++ a.name.spans ++ a.rightField.spans ++
    a.rightAsset.spans ++ a.remarks.flatMap Remark.spans)

def Define.spans (d : Define) : List Span := d.span :: d.key.spans

/-- A declaration has the spans of its kind. -/
def Declaration.spans : Declaration → List Span
  | define d => d.spans
  | category c => c.spans
  | associations as => as.flatMap Association.spans

/-- The path of an include has no span apart from that of the include. -/
def Item.spans : Item → List Span
  | declaration d => d.spans
  | inclusion i => [i.span]

/-- Every span of a specification. -/
def Spec.spans (s : Spec) : List Span := s.items.flatMap Item.spans

theorem Ident.span_mem_spans (n : Ident) : n.span ∈ n.spans := List.mem_singleton_self n.span

theorem Ttc.span_mem_spans (t : Ttc) : t.span ∈ t.spans := by
  cases t <;> exact List.mem_cons_self

/-! ### What relocation tells of them -/

/-- Two relocations that give the same agree on every span. -/
def Shows {α : Type} (move : (Span → Span) → α → α) (spans : α → List Span) : Prop :=
  ∀ ⦃f g x⦄, move f x = move g x → ∀ s ∈ spans x, f s = g s

namespace Shows

variable {α : Type} {move : (Span → Span) → α → α} {spans : α → List Span}
variable {f g : Span → Span} {xs : List α} {o : Option α}

/-- What shows its spans does so as an entry of a list, too. -/
theorem list (h : Shows move spans) (same : xs.map (move f) = xs.map (move g)) :
    ∀ s ∈ xs.flatMap spans, f s = g s := by
  intro s hs
  obtain ⟨x, hx, hs⟩ := List.mem_flatMap.mp hs
  exact h (List.map_inj_left.mp same x hx) s hs

/-- What shows its spans does so where it may be missing. -/
theorem option (h : Shows move spans) (same : o.map (move f) = o.map (move g)) :
    ∀ s ∈ o.toList.flatMap spans, f s = g s := by
  cases o with
  | none => exact fun _ hs => nomatch hs
  | some x =>
      rw [Option.toList_some, List.flatMap_singleton]
      exact h (Option.some.inj same)

end Shows

theorem Ident.shows : Shows relocate spans := by
  intro f g n h
  exact List.forall_mem_singleton.mpr (Ident.mk.inj h).2

/-- By induction: an expression shows its span and those of its operands. -/
theorem Expr.shows : Shows relocate spans := by
  intro f g e h
  induction e with
  | field n s =>
      obtain ⟨name, span⟩ := field.inj h
      exact List.forall_mem_cons.mpr ⟨span, Ident.shows name⟩
  | call n s =>
      obtain ⟨name, span⟩ := call.inj h
      exact List.forall_mem_cons.mpr ⟨span, Ident.shows name⟩
  | collect l r s ihl ihr =>
      obtain ⟨lhs, rhs, span⟩ := collect.inj h
      exact List.forall_mem_cons.mpr ⟨span, List.forall_mem_append.mpr ⟨ihl lhs, ihr rhs⟩⟩
  | combine op l r s ihl ihr =>
      obtain ⟨_, lhs, rhs, span⟩ := combine.inj h
      exact List.forall_mem_cons.mpr ⟨span, List.forall_mem_append.mpr ⟨ihl lhs, ihr rhs⟩⟩
  | closure e s ih =>
      obtain ⟨inner, span⟩ := closure.inj h
      exact List.forall_mem_cons.mpr ⟨span, ih inner⟩
  | restrict e a s ih =>
      obtain ⟨inner, asset, span⟩ := restrict.inj h
      exact List.forall_mem_cons.mpr
        ⟨span, List.forall_mem_append.mpr ⟨ih inner, Ident.shows asset⟩⟩

theorem Ttc.shows : Shows relocate spans := by
  intro f g t h
  induction t with
  | number v s => exact List.forall_mem_singleton.mpr (number.inj h).2
  | distribution n ps s =>
      obtain ⟨name, _, span⟩ := distribution.inj h
      exact List.forall_mem_cons.mpr ⟨span, Ident.shows name⟩
  | binary op l r s ihl ihr =>
      obtain ⟨_, lhs, rhs, span⟩ := binary.inj h
      exact List.forall_mem_cons.mpr ⟨span, List.forall_mem_append.mpr ⟨ihl lhs, ihr rhs⟩⟩

theorem Remark.shows : Shows relocate spans := by
  intro f g r h
  obtain ⟨key, _, span⟩ := Remark.mk.inj h
  exact List.forall_mem_cons.mpr ⟨span, Ident.shows key⟩

theorem Classification.shows : Shows relocate spans := by
  intro f g c h
  exact List.forall_mem_singleton.mpr (Classification.mk.inj h).2

theorem Requires.shows : Shows relocate spans := by
  intro f g q h
  obtain ⟨exprs, span⟩ := Requires.mk.inj h
  exact List.forall_mem_cons.mpr ⟨span, Expr.shows.list exprs⟩

theorem Reaches.shows : Shows relocate spans := by
  intro f g q h
  obtain ⟨_, exprs, span⟩ := Reaches.mk.inj h
  exact List.forall_mem_cons.mpr ⟨span, Expr.shows.list exprs⟩

/-- A step shows what each of its parts shows. -/
theorem AttackStep.shows : Shows relocate spans := by
  intro f g s h
  obtain ⟨_, name, tags, cia, ttc, remarks, requires, reaches, span⟩ := AttackStep.mk.inj h
  refine List.forall_mem_cons.mpr ⟨span, ?_⟩
  simp only [List.forall_mem_append, and_assoc]
  exact ⟨Ident.shows name, Ident.shows.list tags, Classification.shows.option cia,
    Ttc.shows.option ttc, Remark.shows.list remarks, Requires.shows.option requires,
    Reaches.shows.option reaches⟩

theorem Variable.shows : Shows relocate spans := by
  intro f g v h
  obtain ⟨name, expr, span⟩ := Variable.mk.inj h
  exact List.forall_mem_cons.mpr
    ⟨span, List.forall_mem_append.mpr ⟨Ident.shows name, Expr.shows expr⟩⟩

/-- An asset shows the spans of all its members. -/
theorem Asset.shows : Shows relocate spans := by
  intro f g a h
  obtain ⟨_, name, parent, remarks, steps, bindings, span⟩ := Asset.mk.inj h
  refine List.forall_mem_cons.mpr ⟨span, ?_⟩
  simp only [List.forall_mem_append, and_assoc]
  exact ⟨Ident.shows name, Ident.shows.option parent, Remark.shows.list remarks,
    AttackStep.shows.list steps, Variable.shows.list bindings⟩

theorem Category.shows : Shows relocate spans := by
  intro f g c h
  obtain ⟨name, remarks, assets, span⟩ := Category.mk.inj h
  refine List.forall_mem_cons.mpr ⟨span, ?_⟩
  simp only [List.forall_mem_append, and_assoc]
  exact ⟨Ident.shows name, Remark.shows.list remarks, Asset.shows.list assets⟩

theorem Association.shows : Shows relocate spans := by
  intro f g a h
  obtain ⟨leftAsset, leftField, _, name, _, rightField, rightAsset, remarks, span⟩ :=
    Association.mk.inj h
  refine List.forall_mem_cons.mpr ⟨span, ?_⟩
  simp only [List.forall_mem_append, and_assoc]
  exact ⟨Ident.shows leftAsset, Ident.shows leftField, Ident.shows name,
    Ident.shows rightField, Ident.shows rightAsset, Remark.shows.list remarks⟩

theorem Declaration.shows : Shows relocate spans := by
  intro f g d h
  cases d with
  | define d =>
      obtain ⟨key, _, span⟩ := Define.mk.inj (define.inj h)
      exact List.forall_mem_cons.mpr ⟨span, Ident.shows key⟩
  | category c => exact Category.shows (category.inj h)
  | associations as => exact Association.shows.list (associations.inj h)

/-- Two relocations that give the same item agree on all of its spans. -/
theorem Item.shows : Shows relocate spans := by
  intro f g i h
  cases i with
  | declaration d => exact Declaration.shows (declaration.inj h)
  | inclusion i =>
      exact List.forall_mem_singleton.mpr (Include.mk.inj (inclusion.inj h)).2

theorem ParseError.span_relocate (f : Span → Span) (e : ParseError) :
    (e.relocate f).span = f e.span := by
  cases e <;> rfl

/-! ### Reading keeps to the spans of lexemes -/

section

variable {P : Span → Prop} {ts : List Lexeme} {eof : Span}

/-- Merging two spans with the property gives one with it. -/
def Merges (P : Span → Prop) : Prop := ∀ a b, P a → P b → P (a.merge b)

open Classical in
/-- The span one line further down if it has the property, and no place otherwise. -/
noncomputable def Span.lowerIf (P : Span → Prop) (s : Span) : Span :=
  if P s then s.shift 0 1 else .nowhere

theorem Span.lowerIf_of_prop {s : Span} (h : P s) : s.lowerIf P = s.shift 0 1 := if_pos h

/-- A span comes out the same both ways exactly if it is that span and has the property. -/
theorem Span.shift_eq_lowerIf_iff {s t : Span} :
    s.shift 0 1 = t.lowerIf P ↔ s = t ∧ P t := by
  constructor
  · intro same
    by_cases h : P t
    · rw [lowerIf_of_prop h] at same
      simp only [shift, mk.injEq, Nat.add_zero, Nat.add_right_cancel_iff] at same
      exact ⟨by cases s; cases t; simp_all, h⟩
    · rw [lowerIf, if_neg h] at same
      exact absurd (congrArg line same) (Nat.succ_ne_zero s.line)
  · rintro ⟨rfl, h⟩
    exact (lowerIf_of_prop h).symm

/-- Two ways to look at spans that differ on exactly those without the property. -/
noncomputable def Views.only (merges : Merges P) : Views where
  left := Span.shift 0 1
  right := Span.lowerIf P
  merge ha hb := by
    obtain ⟨rfl, hP⟩ := Span.shift_eq_lowerIf_iff.mp ha
    obtain ⟨rfl, hP'⟩ := Span.shift_eq_lowerIf_iff.mp hb
    exact (Span.lowerIf_of_prop (merges _ _ hP hP')).symm

/-- A span looks the same to both views exactly if it has the property. -/
theorem Views.only_iff {merges : Merges P} {s : Span} :
    (Views.only merges).left s = (Views.only merges).right s ↔ P s :=
  Span.shift_eq_lowerIf_iff.trans (and_iff_right rfl)

/-- Lexemes whose spans have the property are alike to themselves, so a reader has to respect the
property. -/
theorem alike_only {merges : Merges P} (h : ∀ l ∈ ts, P l.span) : Alike (.only merges) ts ts := by
  induction ts with
  | nil => exact .nil
  | cons l ts ih =>
      obtain ⟨here, more⟩ := List.forall_mem_cons.mp h
      exact .cons (Views.only_iff.mpr here) Iff.rfl (ih more)

/-- What holds of the spans of lexemes and of the end, and is kept by merging, holds of every span
that is read. -/
theorem Item.spans_of_readAll {items : List Item} (merges : Merges P) (ends : P eof)
    (h : ∀ l ∈ ts, P l.span) (read : readAll eof ts = .ok items) :
    ∀ i ∈ items, ∀ s ∈ i.spans, P s := by
  have alike : Alike (.only merges) ts ts := alike_only h
  have same := relocate_readAll (Views.only_iff.mpr ends) alike
  rw [read] at same
  intro i hi s hs
  have item := List.map_inj_left.mp (Except.ok.inj same) i hi
  exact Views.only_iff.mp (Item.shows item s hs)

/-- Where reading fails, the error has the property that all lexemes have. -/
theorem Item.span_of_readAll {e : ParseError} (merges : Merges P) (ends : P eof)
    (h : ∀ l ∈ ts, P l.span) (read : readAll eof ts = .error e) : P e.span := by
  have alike : Alike (.only merges) ts ts := alike_only h
  have same := relocate_readAll (Views.only_iff.mpr ends) alike
  rw [read] at same
  have span := congrArg ParseError.span (Except.error.inj same)
  rw [ParseError.span_relocate, ParseError.span_relocate] at span
  exact Views.only_iff.mp span

end

/-! ### Spans between tokens -/

variable {source : String} {l : Lexeme}

/-- The span goes from the start of a token to the end of one, and has the line on which it
starts. -/
structure Framed (source : String) (s : Span) : Prop where
  nonempty : s.start < s.stop
  within : s.stop ≤ source.utf8ByteSize
  starts : ∃ l, .lexeme l ∈ scan source ∧ l.span.start = s.start
  stops : ∃ l, .lexeme l ∈ scan source ∧ l.span.stop = s.stop
  line : OnLine source s.start s.line

/-- What the scanner yields lies in the source. -/
theorem framed_of_lexeme (hl : .lexeme l ∈ scan source) : Framed source l.span := by
  have placed : Placed source l.span := placed_of_mem_scan hl
  exact ⟨placed.nonempty, placed.stop_le, ⟨l, hl, rfl⟩, ⟨l, hl, rfl⟩, placed.line⟩

/-- The stretch from one framed span to another is framed: it begins with the one and ends with the
other. -/
theorem merges_framed : Merges (Framed source) := by
  intro a b ha hb
  have within : max a.stop b.stop ≤ source.utf8ByteSize := max_le ha.within hb.within
  have stops : ∃ l, .lexeme l ∈ scan source ∧ l.span.stop = max a.stop b.stop :=
    max_rec' (fun n => ∃ l, .lexeme l ∈ scan source ∧ l.span.stop = n) ha.stops hb.stops
  rw [Span.merge]
  split
  · exact ⟨lt_max_of_lt_left ha.nonempty, within, ha.starts, stops, ha.line⟩
  · exact ⟨lt_max_of_lt_right hb.nonempty, within, hb.starts, stops, hb.line⟩

/-- Every span of a specification goes from token to token. -/
theorem Spec.framed_of_ofSource {spec : Spec} (h : ofSource source = .ok spec) :
    ∀ s ∈ spec.spans, Framed source s := by
  obtain ⟨ts, lexed⟩ := lexed_of_ofSource h
  have derived := derives_exact_of_ofSource lexed (fun _ => trivial) h
  -- what is read does not depend on where the source ends, so the end may be taken for a lexeme
  have read : ∀ eof, Item.readAll eof ts = .ok spec.items := fun _ =>
    Item.readAll_of_derives (fun _ _ separate => separate) derived
  have framed : ∀ l ∈ ts, Framed source l.span := fun l hl =>
    framed_of_lexeme (mem_scan_of_lexemes lexed hl)
  intro s hs
  obtain ⟨i, hi, hs⟩ := List.mem_flatMap.mp hs
  cases ts with
  | nil =>
      have none := read .nowhere
      rw [Item.readAll] at none
      rw [← Except.ok.inj none] at hi
      cases hi
  | cons l ts =>
      have ends := framed l List.mem_cons_self
      exact Item.spans_of_readAll merges_framed ends framed (read l.span) i hi s hs

end MetaAttack
