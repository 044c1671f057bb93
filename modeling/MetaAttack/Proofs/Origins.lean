import MetaAttack.Proofs.Apart
import MetaAttack.Proofs.FirstWins
import MetaAttack.Proofs.Spans

/-!
# Where errors point

No check makes up a place. The registry takes its spans over from the declarations, and whatever is
reported, each cause of an expression that does not resolve included, points at a span of the
registry; only a define that is missing points nowhere. So what holds of all spans of a
specification holds of all places that its analysis reports.
-/

namespace MetaAttack

variable {P : Span → Prop}

/-! ### Errors -/

namespace SemanticError

/-- The causes that an error is reported with. -/
def causes : SemanticError → List ResolveError
  | .resolve cause => [cause]
  | .unresolved causes _ _ => causes
  | _ => []

/-- The places that an error points at: its own and those of its causes. -/
def spans (e : SemanticError) : List Span := e.span :: e.causes.map ResolveError.span

/-- The error points at spans with the property, unless it is about a define that is missing. -/
def PointsTo (P : Span → Prop) (e : SemanticError) : Prop :=
  (∃ key, e = .missingDefine key) ∨ ∀ s ∈ e.spans, P s

/-- An error without causes points at its own place only. -/
theorem pointsTo_of_span {e : SemanticError} (alone : e.causes = []) (h : P e.span) :
    e.PointsTo P := by
  rw [PointsTo, spans, alone]
  exact .inr (List.forall_mem_singleton.mpr h)

end SemanticError

open SemanticError (pointsTo_of_span)

/-! ### The registry -/

/-- All spans that are kept of the step have the property. -/
structure StepEntry.Within (P : Span → Prop) (s : StepEntry) : Prop where
  span : P s.span
  cia : ∀ c ∈ s.cia, P c.span
  ttc : ∀ t ∈ s.ttc, ∀ x ∈ t.spans, P x
  requires : ∀ q ∈ s.requires, ∀ x ∈ q.spans, P x
  reaches : ∀ q ∈ s.reaches, ∀ x ∈ q.spans, P x

/-- All spans of an entered asset have the property, those of its members included. -/
structure AssetEntry.Within (P : Span → Prop) (a : AssetEntry) : Prop where
  span : P a.span
  parent : ∀ p ∈ a.parent, P p.span
  fields : ∀ f ∈ a.fields.entries, P f.span
  bindings : ∀ v ∈ a.bindings.entries, P v.span ∧ ∀ x ∈ v.expr.spans, P x
  steps : ∀ s ∈ a.steps.entries, s.Within P

/-- All spans of a registry have the property. -/
structure Registry.Within (P : Span → Prop) (R : Registry) : Prop where
  defines : ∀ d ∈ R.defines.entries, P d.span
  assets : ∀ a ∈ R.assets.entries, a.Within P
  associations : ∀ a ∈ R.associations, P a.span ∧ P a.left.span ∧ P a.right.span
  remarks : ∀ b ∈ R.remarks, ∀ r ∈ b.entries, P r.span

/-! ### Entering -/

/-- All spans of an entity. -/
def Entity.spans : Entity → List Span
  | define d => d.spans
  | category name remarks span => span :: (name.spans ++ remarks.flatMap Remark.spans)
  | asset _ a => a.spans
  | association a => a.spans

/-- Entities keep the spans of the declaration that they are from. -/
theorem Declaration.forall_spans_entities {d : Declaration} (h : ∀ x ∈ d.spans, P x) :
    ∀ e ∈ d.entities, ∀ x ∈ e.spans, P x := by
  cases d with
  | define d => exact List.forall_mem_singleton.mpr h
  | category c =>
      have all : ∀ x ∈ c.span :: (c.name.spans ++ c.remarks.flatMap Remark.spans ++
          c.assets.flatMap Asset.spans), P x := h
      simp only [List.forall_mem_cons, List.forall_mem_append] at all
      refine List.forall_mem_cons.mpr ⟨?_, ?_⟩
      · simp only [Entity.spans, List.forall_mem_cons, List.forall_mem_append]
        exact ⟨all.1, all.2.1⟩
      · refine List.forall_mem_map.mpr fun a ha => ?_
        exact List.forall_mem_flatMap.mp all.2.2 a ha
  | associations as =>
      exact List.forall_mem_map.mpr fun a ha => List.forall_mem_flatMap.mp h a ha

theorem StepEntry.within_ofStep {s : AttackStep} (h : ∀ x ∈ s.spans, P x) :
    (ofStep s).Within P := by
  simp only [AttackStep.spans, List.forall_mem_cons, List.forall_mem_append,
    List.forall_mem_flatMap, Option.mem_toList] at h
  obtain ⟨span, ⟨⟨⟨⟨-, cia⟩, ttc⟩, -⟩, requires⟩, reaches⟩ := h
  exact ⟨span, fun c hc => cia c hc c.span (List.mem_singleton_self _), ttc, requires, reaches⟩

/-- What the spans of an asset are made of. -/
theorem Asset.forall_spans {a : Asset} (h : ∀ x ∈ a.spans, P x) :
    P a.span ∧ P a.name.span ∧ (∀ p ∈ a.parent, P p.span) ∧ (∀ r ∈ a.remarks, P r.span) ∧
      (∀ s ∈ a.steps, ∀ x ∈ s.spans, P x) ∧ ∀ v ∈ a.bindings, ∀ x ∈ v.spans, P x := by
  simp only [spans, List.forall_mem_cons, List.forall_mem_append, List.forall_mem_flatMap,
    Option.mem_toList] at h
  obtain ⟨span, ⟨⟨⟨name, parent⟩, remarks⟩, steps⟩, bindings⟩ := h
  refine ⟨span, name _ a.name.span_mem_spans, fun p hp => ?_, fun r hr => ?_, steps, bindings⟩
  · exact parent p hp p.span p.span_mem_spans
  · exact remarks r hr r.span List.mem_cons_self

/-- Entering an asset makes up no span. -/
theorem AssetEntry.within_ofAsset {category : String} {a : Asset} (h : ∀ x ∈ a.spans, P x) :
    (ofAsset category a).Within P := by
  obtain ⟨span, -, parent, -, steps, bindings⟩ := a.forall_spans h
  refine ⟨span, parent, fun f hf => (List.not_mem_nil hf).elim, fun v hv => ?_, fun s hs => ?_⟩
  · obtain ⟨w, hw, rfl⟩ := List.mem_map.mp (Table.mem_of_mem_empty_insertAll hv)
    have spans := bindings w hw
    simp only [Variable.spans, List.forall_mem_cons, List.forall_mem_append] at spans
    exact ⟨spans.1, spans.2.2⟩
  · obtain ⟨t, ht, rfl⟩ := List.mem_map.mp (Table.mem_of_mem_empty_insertAll hs)
    exact StepEntry.within_ofStep (steps t ht)

namespace Declared

variable {es : List Entity}

theorem span_of_mem_defines (h : ∀ e ∈ es, ∀ x ∈ e.spans, P x) {d : Define}
    (hd : d ∈ MetaAttack.defines es) : P d.span := by
  obtain ⟨e, he, hd⟩ := List.mem_flatMap.mp hd
  cases e with
  | define d' =>
      obtain rfl := List.mem_singleton.mp hd
      exact h _ he _ List.mem_cons_self
  | category | asset | association => cases hd

theorem spans_of_mem_assets (h : ∀ e ∈ es, ∀ x ∈ e.spans, P x) {x : String × Asset}
    (hx : x ∈ MetaAttack.assets es) : ∀ s ∈ x.2.spans, P s := by
  obtain ⟨e, he, hx⟩ := List.mem_flatMap.mp hx
  cases e with
  | asset c a =>
      obtain rfl := List.mem_singleton.mp hx
      exact h _ he
  | category | define | association => cases hx

theorem spans_of_mem_associations (h : ∀ e ∈ es, ∀ x ∈ e.spans, P x) {a : Association}
    (ha : a ∈ MetaAttack.associations es) : ∀ s ∈ a.spans, P s := by
  obtain ⟨e, he, ha⟩ := List.mem_flatMap.mp ha
  cases e with
  | association a' =>
      obtain rfl := List.mem_singleton.mp ha
      exact h _ he
  | category | define | asset => cases ha

/-- The remarks that are kept are those of a category, an association or an asset. -/
theorem span_of_mem_blocks (h : ∀ e ∈ es, ∀ x ∈ e.spans, P x) {b : RemarkBlock} (hb : b ∈ blocks es)
    {r : Remark} (hr : r ∈ b.entries) : P r.span := by
  rcases List.mem_append.mp hb with hb | hb
  · obtain ⟨e, he, hb⟩ := List.mem_flatMap.mp hb
    have spans := h e he
    cases e with
    | category name remarks span =>
        obtain rfl := List.mem_singleton.mp hb
        simp only [Entity.spans, List.forall_mem_cons, List.forall_mem_append,
          List.forall_mem_flatMap] at spans
        exact spans.2.2 r hr _ List.mem_cons_self
    | association a =>
        obtain rfl := List.mem_singleton.mp hb
        simp only [Entity.spans, Association.spans, List.forall_mem_cons, List.forall_mem_append,
          List.forall_mem_flatMap] at spans
        exact spans.2.2 r hr _ List.mem_cons_self
    | define | asset => cases hb
  · obtain ⟨x, hx, hb⟩ := List.mem_flatMap.mp hb
    obtain ⟨-, -, -, remarks, steps, -⟩ :=
      x.2.forall_spans (spans_of_mem_assets h (mem_of_mem_firsts hx))
    rcases List.mem_cons.mp hb with rfl | hb
    · exact remarks r hr
    · obtain ⟨s, hs, rfl⟩ := List.mem_map.mp hb
      have spans := steps s (mem_of_mem_firsts hs)
      simp only [AttackStep.spans, List.forall_mem_cons, List.forall_mem_append,
        List.forall_mem_flatMap] at spans
      exact spans.2.1.1.2 r hr _ List.mem_cons_self

/-- The registry has its spans from the entities. -/
theorem within_of (h : ∀ e ∈ es, ∀ x ∈ e.spans, P x) : (of es).registry.Within P := by
  refine ⟨fun d hd => ?_, fun a ha => ?_, fun a ha => ?_, fun b hb r hr => ?_⟩
  · rw [defines_of] at hd
    obtain ⟨d', hd', rfl⟩ := List.mem_map.mp hd
    exact span_of_mem_defines h (mem_of_mem_firsts hd')
  · rw [assets_of] at ha
    obtain ⟨x, hx, rfl⟩ := List.mem_map.mp ha
    exact AssetEntry.within_ofAsset (spans_of_mem_assets h (mem_of_mem_firsts hx))
  · rw [associations_of] at ha
    obtain ⟨a', ha', rfl⟩ := List.mem_map.mp ha
    have spans := spans_of_mem_associations h ha'
    simp only [Association.spans, List.forall_mem_cons, List.forall_mem_append] at spans
    obtain ⟨span, ⟨⟨⟨⟨left, -⟩, -⟩, -⟩, right⟩, -⟩ := spans
    exact ⟨span, left _ a'.leftAsset.span_mem_spans, right _ a'.rightAsset.span_mem_spans⟩
  · have kept := (List.mem_filter.mp ((remarks_of es).mem_iff.mp hb)).1
    exact span_of_mem_blocks h kept hr

/-- What is reported while entering points at spans of the entities. -/
theorem pointsTo_of (h : ∀ e ∈ es, ∀ x ∈ e.spans, P x) :
    Only (·.PointsTo P) (of es).errors := by
  have assets : ∀ x ∈ MetaAttack.assets es, ∀ s ∈ x.2.spans, P s :=
    fun x => spans_of_mem_assets h
  have defines : Only (·.PointsTo P) (duplicateDefines (MetaAttack.defines es)) := by
    refine only_map fun p hp => pointsTo_of_span rfl ?_
    exact span_of_mem_defines h (fst_mem_of_mem_repeats hp)
  have names : Only (·.PointsTo P) (duplicateAssets (MetaAttack.assets es)) := by
    refine only_map fun p hp => pointsTo_of_span rfl ?_
    exact (p.1.2.forall_spans (assets p.1 (fst_mem_of_mem_repeats hp))).2.1
  have members : Only (·.PointsTo P) (memberErrors (MetaAttack.assets es)) := by
    refine only_flatMap fun x hx => ?_
    obtain ⟨-, -, -, -, steps, bindings⟩ := x.2.forall_spans (assets x (mem_of_mem_firsts hx))
    apply Only.append
    · refine only_map fun p hp => pointsTo_of_span rfl ?_
      exact steps p.1 (fst_mem_of_mem_repeats hp) _ List.mem_cons_self
    · refine only_map fun p hp => pointsTo_of_span rfl ?_
      exact bindings p.1 (fst_mem_of_mem_repeats hp) _ List.mem_cons_self
  exact fun e he => ((defines.append names).append members) e ((errors_of es).mem_iff.mp he)

end Declared

/-! ### Fields -/

theorem AssetEntry.Within.widen {a : AssetEntry} {fs : List OwnedField} (h : a.Within P)
    (hfs : ∀ f ∈ fs, P f.field.span) : (a.widen fs).Within P :=
  { h with
    fields := fun g hg => by
      rcases Table.mem_of_mem_insertAll hg with old | new
      · exact h.fields g old
      · obtain ⟨⟨f, hf, -, rfl⟩, -⟩ := mem_openTo.mp new
        exact hfs f hf }

namespace Registry

variable {R : Registry}

/-- Only the fields that are added bring spans of their own. -/
theorem Within.widen {fs : List OwnedField} (h : R.Within P) (hfs : ∀ f ∈ fs, P f.field.span) :
    (R.widen fs).Within P :=
  { h with
    assets := fun a ha => by
      obtain ⟨b, hb, rfl⟩ := List.mem_map.mp ha
      exact (h.assets b hb).widen hfs }

/-- The field at either end has the span of the association. -/
theorem span_of_mem_ends {a : AssociationEntry} {f : OwnedField} (h : P a.span) (hf : f ∈ a.ends) :
    P f.field.span := by
  rcases List.mem_cons.mp hf with rfl | hf
  · exact h
  · rwa [List.mem_singleton.mp hf]

/-- The fields of all associations are added with the spans of their ends. -/
theorem Within.withFields (h : R.Within P) : R.withFields.1.Within P := by
  rw [withFields_fst]
  refine h.widen fun f hf => ?_
  obtain ⟨a, ha, hf⟩ := List.mem_flatMap.mp hf
  exact span_of_mem_ends (h.associations a (List.mem_filter.mp ha).1).1 hf

/-- An end that is refused is blamed in its own place. -/
theorem pointsTo_placeField (R : Registry) {f : OwnedField} (hf : P f.field.span) :
    Only (·.PointsTo P) (R.placeField f).2 := by
  rw [placeField]
  split
  · exact only_nil
  · split
    · exact only_singleton (pointsTo_of_span rfl hf)
    · split
      · exact only_singleton (pointsTo_of_span rfl hf)
      · exact only_nil

theorem pointsTo_placeFields (R : Registry) {fs : List OwnedField}
    (hfs : ∀ f ∈ fs, P f.field.span) : Only (·.PointsTo P) (R.placeFields fs).2 := by
  induction fs generalizing R with
  | nil => exact only_nil
  | cons f fs ih =>
      obtain ⟨hf, hfs⟩ := List.forall_mem_cons.mp hfs
      exact (R.pointsTo_placeField hf).append (ih (R.placeField f).1 hfs)

/-- An end that is not declared is blamed by the name of its asset. -/
theorem pointsTo_placeAssociations (R : Registry) {as : List AssociationEntry}
    (h : ∀ a ∈ as, P a.span ∧ P a.left.span ∧ P a.right.span) :
    Only (·.PointsTo P) (R.placeAssociations as).2 := by
  induction as generalizing R with
  | nil => exact only_nil
  | cons a as ih =>
      obtain ⟨⟨span, left, right⟩, more⟩ := List.forall_mem_cons.mp h
      by_cases declared : a.undefinedEnds R = []
      · rw [placeAssociations_cons_of_declared declared]
        have ends : ∀ f ∈ a.ends, P f.field.span := fun _ => span_of_mem_ends span
        have fields := R.pointsTo_placeFields ends
        exact fields.append (ih (R.widen a.ends) more)
      · rw [placeAssociations_cons_of_undeclared declared]
        refine Only.append (only_filterMap fun i hi e he => ?_) (ih R more)
        split at he
        · cases he
        · cases he
          refine pointsTo_of_span rfl ?_
          rcases List.mem_cons.mp hi with rfl | hi
          · exact left
          · rwa [List.mem_singleton.mp hi]

/-! ### Checks -/

/-- Rooted assets are entries of the registry, so their spans have the property. -/
theorem mem_of_mem_rooted {a : AssetEntry} (h : a ∈ R.rooted) : a ∈ R.assets.entries :=
  (List.mem_filter.mp h).1

/-- A loop is reported for one of the assets that are looked through. -/
theorem fst_mem_of_mem_loopsAmong {reported : List String} {as : List AssetEntry}
    {x : AssetEntry × List AssetEntry} (h : x ∈ R.loopsAmong reported as) : x.1 ∈ as := by
  induction as generalizing reported with
  | nil => cases h
  | cons a as ih =>
      by_cases known : a.name ∈ reported
      · rw [loopsAmong_cons_of_reported as known] at h
        exact List.mem_cons_of_mem a (ih h)
      · by_cases found : R.chainEnd? a.name = some a.name
        · rw [loopsAmong_cons_of_found as known found] at h
          rcases List.mem_cons.mp h with rfl | h
          · exact List.mem_cons_self
          · exact List.mem_cons_of_mem a (ih h)
        · rw [loopsAmong_cons_of_clean as found] at h
          exact List.mem_cons_of_mem a (ih h)

namespace Within

theorem pointsTo_requiredDefineErrors (h : R.Within P) :
    Only (·.PointsTo P) R.requiredDefineErrors := by
  have each : ∀ key, Only (·.PointsTo P) (R.defineErrors key) := by
    intro key
    rw [defineErrors]
    split
    · exact only_singleton (.inl ⟨key, rfl⟩)
    · next d found =>
      have span : P d.span := h.defines d (Table.mem_of_find? found)
      split
      · exact only_singleton (pointsTo_of_span rfl span)
      · split
        · exact only_singleton (pointsTo_of_span rfl span)
        · exact only_nil
  exact (each "id").append (each "version")

/-- A missing parent is blamed by its name in the asset that extends it, a loop in the place of one
of its members. -/
theorem pointsTo_extensionErrors (h : R.Within P) : Only (·.PointsTo P) R.extensionErrors := by
  refine Only.append (only_filterMap fun a ha e he => ?_) (only_map fun x hx => ?_)
  · obtain ⟨p, hp, he⟩ := Option.bind_eq_some_iff.mp he
    split at he
    · cases he
    · cases he
      exact pointsTo_of_span rfl ((h.assets a ha).parent p hp)
  · exact pointsTo_of_span rfl (h.assets x.1 (fst_mem_of_mem_loopsAmong hx)).span

/-- A field that repeats an inherited one is blamed where it is declared, in the lower asset. -/
theorem pointsTo_inheritedFieldErrors (h : R.Within P) :
    Only (·.PointsTo P) R.inheritedFieldErrors := by
  refine only_flatMap fun a ha => only_filterMap fun f hf e he => ?_
  obtain ⟨prior, -, rfl⟩ := Option.map_eq_some_iff.mp he
  exact pointsTo_of_span rfl ((h.assets a (mem_of_mem_rooted ha)).fields f hf)

theorem pointsTo_inheritedVariableErrors (h : R.Within P) :
    Only (·.PointsTo P) R.inheritedVariableErrors := by
  refine only_flatMap fun a ha => only_filterMap fun v hv e he => ?_
  obtain ⟨prior, -, rfl⟩ := Option.map_eq_some_iff.mp he
  exact pointsTo_of_span rfl ((h.assets a (mem_of_mem_rooted ha)).bindings v hv).1

/-- A remark that repeats another one is blamed as a whole. -/
theorem pointsTo_remarkErrors (h : R.Within P) : Only (·.PointsTo P) R.remarkErrors := by
  have each : ∀ earlier rs, (∀ r ∈ rs, P r.span) →
      Only (·.PointsTo P) (repeatedRemarks earlier rs) := by
    intro earlier rs spans
    induction rs generalizing earlier with
    | nil => exact only_nil
    | cons r rs ih =>
        obtain ⟨span, spans⟩ := List.forall_mem_cons.mp spans
        rw [repeatedRemarks]
        split
        · exact List.forall_mem_cons.mpr ⟨pointsTo_of_span rfl span, ih _ spans⟩
        · exact ih _ spans
  exact only_flatMap fun b hb => each [] b.entries (h.remarks b hb)

end Within

end Registry

/-! ### Steps -/

namespace Ttc

theorem pointsTo_leafErrors {name : String} {params : List Float} {span : Span} (h : P span) :
    Only (·.PointsTo P) (leafErrors name params span) := by
  rw [leafErrors]
  split
  · exact only_singleton (pointsTo_of_span rfl h)
  · split
    · exact only_singleton (pointsTo_of_span rfl h)
    · split
      · split
        · exact only_nil
        · exact only_singleton (pointsTo_of_span rfl h)
      · exact only_nil

theorem pointsTo_placeErrors {restricted operand : Bool} {name : String} {span : Span}
    (h : P span) : Only (·.PointsTo P) (placeErrors restricted operand name span) := by
  rw [placeErrors]
  split
  · exact only_nil
  · apply Only.append
    · split
      · exact only_singleton (pointsTo_of_span rfl h)
      · exact only_nil
    · split
      · exact only_singleton (pointsTo_of_span rfl h)
      · exact only_nil

/-- Each leaf of a time is blamed in its own place, whatever surrounds it. -/
theorem pointsTo_errors {t : Ttc} (restricted operand : Bool) (h : ∀ x ∈ t.spans, P x) :
    Only (·.PointsTo P) (t.errors restricted operand) := by
  induction t generalizing restricted operand with
  | number _ _ => exact only_nil
  | distribution n ps s =>
      have span : P s := h s List.mem_cons_self
      exact (pointsTo_leafErrors span).append (pointsTo_placeErrors span)
  | binary op l r s ihl ihr =>
      simp only [spans, List.forall_mem_cons, List.forall_mem_append] at h
      exact (ihl _ _ h.2.1).append (ihr _ _ h.2.2)

end Ttc

namespace StepEntry

variable {s : StepEntry}

theorem Within.ttc_span (h : s.Within P) {t : Ttc} (ht : t ∈ s.ttc) : P t.span :=
  h.ttc t ht t.span t.span_mem_spans

/-- A step is blamed for how it overrides, and never the step above it. -/
theorem Within.pointsTo_overrideErrors (h : s.Within P) (above : List AssetEntry) :
    Only (·.PointsTo P) (s.overrideErrors above) := by
  rw [overrideErrors]
  split
  · split
    · exact only_singleton (pointsTo_of_span rfl h.span)
    · exact only_nil
  · split
    · exact only_singleton (pointsTo_of_span rfl h.span)
    · exact only_nil

theorem Within.pointsTo_existenceErrors (h : s.Within P) :
    Only (·.PointsTo P) s.existenceErrors := by
  rw [existenceErrors]
  split
  · apply Only.append
    · split
      · exact only_singleton (pointsTo_of_span rfl h.span)
      · exact only_nil
    · cases ht : s.ttc with
      | none => exact only_nil
      | some t => exact only_singleton (pointsTo_of_span rfl (h.ttc_span ht))
  · cases hr : s.requires with
    | none => exact only_nil
    | some r =>
        exact only_singleton (pointsTo_of_span rfl (h.requires r hr r.span List.mem_cons_self))

theorem Within.pointsTo_classificationErrors (h : s.Within P) (asset : String) :
    Only (·.PointsTo P) (s.classificationErrors asset) := by
  rw [classificationErrors]
  split
  · exact only_nil
  · next c hc =>
    split
    · exact only_singleton (pointsTo_of_span rfl (h.cia c hc))
    · exact only_nil

/-- A time that is not allowed at all is blamed as a whole. -/
theorem Within.pointsTo_ttcErrors (h : s.Within P) (asset : String) :
    Only (·.PointsTo P) (s.ttcErrors asset) := by
  rw [ttcErrors]
  cases ht : s.ttc with
  | none => exact only_nil
  | some t =>
      have times : Only (·.PointsTo P) (t.errors false false) :=
        t.pointsTo_errors false false (h.ttc t ht)
      cases s.kind with
      | existence | absence => exact only_nil
      | defense =>
          dsimp only
          split
          · exact times
          · exact only_singleton (pointsTo_of_span rfl (h.ttc_span ht))
      | allOf | anyOf =>
          refine Only.append ?_ times
          split
          · exact only_singleton (pointsTo_of_span rfl (h.ttc_span ht))
          · exact only_nil

theorem Within.classificationWarnings (h : s.Within P) (asset : String) :
    ∀ w ∈ s.classificationWarnings asset, P w.span := by
  rw [StepEntry.classificationWarnings]
  split
  · exact fun _ hw => nomatch hw
  · next c hc =>
    split
    · exact fun _ hw => nomatch hw
    · split
      · exact fun _ hw => nomatch hw
      · exact List.forall_mem_singleton.mpr (h.cia c hc)

end StepEntry

namespace Registry

variable {R : Registry}

/-- All checks of all steps together. -/
theorem Within.pointsTo_stepErrors (h : R.Within P) : Only (·.PointsTo P) R.stepErrors := by
  refine only_flatMap fun a ha => only_flatMap fun s hs => ?_
  have within := (h.assets a ha).steps s hs
  refine Only.append (Only.append (Only.append ?_ within.pointsTo_existenceErrors)
    (within.pointsTo_classificationErrors a.name)) (within.pointsTo_ttcErrors a.name)
  split
  · exact within.pointsTo_overrideErrors _
  · exact only_nil

/-- Warnings point into the source like errors. -/
theorem Within.warnings (h : R.Within P) :
    ∀ w ∈ R.abstractWarnings ++ R.classificationWarnings, P w.span := by
  intro w hw
  rcases List.mem_append.mp hw with hw | hw
  · obtain ⟨a, ha, rfl⟩ := List.mem_map.mp hw
    exact (h.assets a (List.mem_filter.mp ha).1).span
  · obtain ⟨a, ha, hw⟩ := List.mem_flatMap.mp hw
    obtain ⟨s, hs, hw⟩ := List.mem_flatMap.mp hw
    exact ((h.assets a ha).steps s hs).classificationWarnings a.name w hw

end Registry

end MetaAttack
