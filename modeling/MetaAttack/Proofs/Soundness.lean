import MetaAttack.Proofs.StepSoundness
import MetaAttack.Proofs.Trailing

/-!
# Specifications that are read

Whatever is read is derived from the grammar, down to its spans, and no lexeme is left over. The one
exception is a comma behind the last item of a list between brackets, which is read although the
documented grammar has none there. As remarks are read as long as they follow, no member that is
read looks like a remark of the one before it.
-/

namespace MetaAttack

variable {ts rest : List Lexeme} {eof : Span} {trailing : Prop}

namespace Dialect

/-- Members in any order, and a comma behind the last item of a list where it is allowed. -/
def allowing (trailing : Prop) : Dialect := ⟨trailing, fun _ _ => True⟩

/-- The same without members that look like remarks. -/
def exact (trailing : Prop) : Dialect := ⟨trailing, Member.Separate⟩

end Dialect

/-! ### Assets and categories -/

theorem Variable.of_reads {v : Variable} {start : Span} (h : Reads (read start eof ts) v rest) :
    ∃ us, ts = us ++ rest ∧ Derives (⟨.keyword .binding, start⟩ :: us) v := by
  rw [read] at h
  obtain ⟨name, r₁, _, hname, h⟩ := h.of_bind
  obtain ⟨equals, r₂, _, hequals, h⟩ := h.of_bind
  obtain ⟨e, r₃, _, hexpr, h⟩ := h.of_bind
  obtain ⟨rfl, rfl⟩ : ⟨name, e, start.merge name.span⟩ = v ∧ r₃ = rest := h.of_pure
  obtain ⟨us, rfl, derived⟩ := Expr.takes_read hexpr
  obtain rfl := of_reads_sign hequals
  obtain rfl := of_reads_ident hname
  exact ⟨⟨.ident name.name, name.span⟩ :: ⟨.sign .equals, equals⟩ :: us, rfl, .mk derived⟩

/-- A member in front of which no remark begins does not look like one. -/
theorem Member.Derives.separate {s : AttackStep} {m : Member} (h : Derives trailing ts m)
    (unremarked : s.requires = none → s.reaches = none → Unremarked (ts ++ rest)) :
    Separate (.step s) m := by
  cases h with
  | binding _ => trivial
  | step derived =>
      obtain ⟨hkind, _⟩ := derived
      rintro noRequires noReaches ⟨⟩ ⟨⟩
      cases hkind
      exact unremarked noRequires noReaches _ _ _ _ rfl

/-- Members that are read are derived from what is consumed, and none looks like a remark of the one
before it. -/
theorem Member.of_reads_all {ms : List Member} (allowed : TrailingComma ts → trailing)
    (h : Reads (readAll eof ts) ms rest) :
    ∃ us, ts = us ++ rest ∧ Many (Derives trailing) us ms ∧ ms.IsChain Separate := by
  induction ts using readAll.induct generalizing ms with
  | case1 ts closed =>
      rw [readAll.eq_def, if_pos closed] at h
      obtain ⟨rfl, rfl⟩ : [] = ms ∧ ts = rest := h.of_pure
      exact ⟨[], rfl, .nil, .nil⟩
  | case2 ts unclosed begins ih =>
      rw [readAll.eq_def, if_neg unclosed, if_pos begins] at h
      obtain ⟨s, r, lt, first, h⟩ := h.of_bind
      obtain ⟨more, r', _, all, h⟩ := h.of_bind
      obtain ⟨rfl, rfl⟩ : step s :: more = ms ∧ r' = rest := h.of_pure
      obtain ⟨us, rfl, derived, unremarked⟩ := AttackStep.of_reads allowed first
      obtain ⟨vs, rfl, many, separate⟩ :=
        ih ⟨s, r, lt⟩ (fun comma => allowed (comma.append_left us)) all
      refine ⟨us ++ vs, (List.append_assoc ..).symm, .cons (.step derived) many,
        List.isChain_cons.mpr ⟨?_, separate⟩⟩
      cases many with
      | nil => simp
      | cons next _ =>
          -- what looks like a remark would have been read as one of `s`
          rintro m ⟨⟩
          rw [List.append_assoc] at unremarked
          exact next.separate unremarked
  | case3 start r unclosed noStep ih =>
      rw [readAll.eq_def, if_neg unclosed, if_neg noStep] at h
      obtain ⟨v, r₁, lt, first, h⟩ := h.of_bind
      obtain ⟨more, r', _, all, h⟩ := h.of_bind
      obtain ⟨rfl, rfl⟩ : binding v :: more = ms ∧ r' = rest := h.of_pure
      obtain ⟨us, rfl, derived⟩ := Variable.of_reads first
      obtain ⟨vs, rfl, many, separate⟩ := ih ⟨v, r₁, lt⟩
        (fun comma => allowed ((comma.append_left us).append_left [_])) all
      exact ⟨⟨.keyword .binding, start⟩ :: us ++ vs, (List.append_assoc (_ :: us) vs r').symm,
        .cons (.binding derived) many, List.isChain_cons.mpr ⟨fun _ _ => trivial, separate⟩⟩
  | case4 l r noBinding unclosed noStep =>
      rw [readAll.eq_def, if_neg unclosed, if_neg noStep] at h
      generalize opened : l :: r = us at h
      split at h
      · exact (noBinding _ (List.cons.inj opened).1).elim
      · exact absurd h Reads.not_error
      · exact absurd h Reads.not_error
  | case5 unclosed noStep =>
      rw [readAll.eq_def, if_neg unclosed, if_neg noStep] at h
      exact absurd h Reads.not_error

theorem of_reads_parent? {parent : Option Ident} (h : Reads (readParent? eof ts) parent rest) :
    ∃ us, ts = us ++ rest ∧ Optional Parent us parent := by
  rw [readParent?.eq_def] at h
  split at h
  · next word r =>
    obtain ⟨name, r', _, hname, h⟩ := h.of_bind
    obtain ⟨rfl, rfl⟩ : some name = parent ∧ r' = rest := h.of_pure
    obtain rfl := of_reads_ident hname
    exact ⟨[_, _], rfl, .present .mk⟩
  · obtain ⟨rfl, rfl⟩ : none = parent ∧ ts = rest := h.of_pure
    exact ⟨[], rfl, .absent⟩

theorem Asset.named_of_reads {isAbstract : Bool} {start : Span} {a : Asset}
    (allowed : TrailingComma ts → trailing) (h : Reads (readNamed isAbstract start eof ts) a rest) :
    ∃ us, ts = us ++ rest ∧ Named (.exact trailing) isAbstract start us a := by
  rw [readNamed] at h
  obtain ⟨name, r₁, _, hname, h⟩ := h.of_bind
  obtain ⟨parent, r₂, _, hparent, h⟩ := h.of_bind
  obtain ⟨remarks, r₃, _, hremarks, h⟩ := h.of_bind
  obtain ⟨opening, r₄, _, hopening, h⟩ := h.of_bind
  obtain ⟨members, r₅, _, hmembers, h⟩ := h.of_bind
  obtain ⟨close, r₆, _, hclose, h⟩ := h.of_bind
  obtain ⟨rfl, rfl⟩ :
      ⟨isAbstract, name, parent, remarks, members.filterMap Member.toStep?,
        members.filterMap Member.toBinding?, start.merge name.span⟩ = a ∧ r₆ = rest := h.of_pure
  obtain rfl := of_reads_ident hname
  obtain ⟨parents, rfl, parentDerived⟩ := of_reads_parent? hparent
  obtain ⟨marks, rfl, remarksDerived, _⟩ := remarks_of_reads hremarks
  obtain rfl := of_reads_sign hopening
  have inside : TrailingComma r₄ → trailing := fun comma => allowed
    ((((comma.append_left [_]).append_left marks).append_left parents).append_left [_])
  obtain ⟨body, rfl, membersDerived, separate⟩ := Member.of_reads_all inside hmembers
  obtain rfl := of_reads_sign hclose
  exact ⟨⟨.ident name.name, name.span⟩ :: (parents ++ (marks ++ ⟨.sign .lbrace, opening⟩ ::
    (body ++ [⟨.sign .rbrace, close⟩]))), by simp,
    .mk parentDerived remarksDerived membersDerived separate⟩

theorem Asset.of_reads_all {as : List Asset} (allowed : TrailingComma ts → trailing)
    (h : Reads (readAll eof ts) as rest) :
    ∃ us, ts = us ++ rest ∧ Many (Derives (.exact trailing)) us as := by
  induction ts using readAll.induct generalizing as with
  | case1 start r ih =>
      rw [readAll] at h
      obtain ⟨word, r₁, lt, hword, h⟩ := h.of_bind
      obtain ⟨a, r₂, lt', first, h⟩ := h.of_bind
      obtain ⟨more, r₃, _, all, h⟩ := h.of_bind
      obtain ⟨rfl, rfl⟩ : a :: more = as ∧ r₃ = rest := h.of_pure
      obtain rfl := of_reads_exactly hword
      have behind : TrailingComma r₁ → trailing := fun comma => allowed (comma.append_left [_, _])
      obtain ⟨us, rfl, named⟩ := named_of_reads behind first
      obtain ⟨vs, rfl, many⟩ :=
        ih ⟨word, _, lt⟩ ⟨a, r₂, lt'⟩ (fun comma => behind (comma.append_left us)) all
      exact ⟨⟨.keyword .abstraction, start⟩ :: ⟨.keyword .asset, word⟩ :: us ++ vs, by simp,
        .cons (.abstract named) many⟩
  | case2 start r ih =>
      rw [readAll] at h
      obtain ⟨a, r₁, lt, first, h⟩ := h.of_bind
      obtain ⟨more, r₂, _, all, h⟩ := h.of_bind
      obtain ⟨rfl, rfl⟩ : a :: more = as ∧ r₂ = rest := h.of_pure
      have behind : TrailingComma r → trailing := fun comma => allowed (comma.append_left [_])
      obtain ⟨us, rfl, named⟩ := named_of_reads behind first
      obtain ⟨vs, rfl, many⟩ := ih ⟨a, r₁, lt⟩ (fun comma => behind (comma.append_left us)) all
      exact ⟨_, by simp, .cons (.concrete named) many⟩
  | case3 s r =>
      rw [readAll] at h
      obtain ⟨rfl, rfl⟩ : [] = as ∧ ⟨.sign .rbrace, s⟩ :: r = rest := h.of_pure
      exact ⟨[], rfl, .nil⟩
  | case4 l r noAbstract noAsset noClose =>
      rw [readAll] at h
      · exact absurd h Reads.not_error
      · exact noAbstract
      · exact noAsset
      · exact noClose
  | case5 =>
      rw [readAll] at h
      exact absurd h Reads.not_error

theorem Category.of_reads {start : Span} {c : Category} (allowed : TrailingComma ts → trailing)
    (h : Reads (read start eof ts) c rest) :
    ∃ us, ts = us ++ rest ∧
      Derives (.exact trailing) (⟨.keyword .category, start⟩ :: us) c := by
  rw [read] at h
  obtain ⟨name, r₁, _, hname, h⟩ := h.of_bind
  obtain ⟨remarks, r₂, _, hremarks, h⟩ := h.of_bind
  obtain ⟨opening, r₃, _, hopening, h⟩ := h.of_bind
  obtain ⟨assets, r₄, _, hassets, h⟩ := h.of_bind
  obtain ⟨close, r₅, _, hclose, h⟩ := h.of_bind
  obtain ⟨rfl, rfl⟩ : ⟨name, remarks, assets, start.merge name.span⟩ = c ∧ r₅ = rest := h.of_pure
  obtain rfl := of_reads_ident hname
  obtain ⟨marks, rfl, remarksDerived, _⟩ := remarks_of_reads hremarks
  obtain rfl := of_reads_sign hopening
  have inside : TrailingComma r₃ → trailing := fun comma =>
    allowed (((comma.append_left [_]).append_left marks).append_left [_])
  obtain ⟨body, rfl, assetsDerived⟩ := Asset.of_reads_all inside hassets
  obtain rfl := of_reads_sign hclose
  exact ⟨⟨.ident name.name, name.span⟩ :: (marks ++ ⟨.sign .lbrace, opening⟩ ::
    (body ++ [⟨.sign .rbrace, close⟩])), by simp, .mk remarksDerived assetsDerived⟩

/-! ### Associations -/

theorem Bound.takes_read : Takes Bound.read Bound.Derives := by
  intro eof ts b rest h
  obtain ⟨⟨b', s⟩, r, _, accepted, rfl, rfl⟩ := h.of_map
  obtain ⟨l, rfl, known, _⟩ := of_reads_accept accepted
  exact ⟨[l], rfl, .mk known⟩

theorem Multiplicity.takes_read : Takes Multiplicity.read Multiplicity.Derives := by
  intro eof ts m rest h
  rw [read] at h
  obtain ⟨min, r, lt, first, h⟩ := h.of_bind
  obtain ⟨us, rfl, hmin⟩ := Bound.takes_read first
  dsimp only at h
  split at h
  · next dots hdots =>
    obtain ⟨max, r', _, second, h⟩ := h.of_bind
    obtain ⟨rfl, rfl⟩ : ⟨min, max⟩ = m ∧ r' = rest := h.of_pure
    obtain ⟨vs, hvs, hmax⟩ := Bound.takes_read second
    refine ⟨us ++ ⟨.sign .dotDot, dots.value⟩ :: vs, ?_, .range hmin hmax⟩
    rw [List.append_assoc, List.cons_append, ← hvs]
    exact congrArg (us ++ ·) (of_sign? hdots)
  · obtain ⟨rfl, rfl⟩ : ⟨min, min⟩ = m ∧ r = rest := h.of_pure
    exact ⟨us, rfl, .single hmin⟩

theorem takes_readFieldName : Takes readFieldName FieldName := by
  intro eof ts name rest h
  rw [readFieldName] at h
  obtain ⟨opening, r₁, _, hopening, h⟩ := h.of_bind
  obtain ⟨n, r₂, _, hname, h⟩ := h.of_bind
  obtain ⟨close, r₃, _, hclose, h⟩ := h.of_bind
  obtain ⟨rfl, rfl⟩ : n = name ∧ r₃ = rest := h.of_pure
  obtain rfl := of_reads_sign hclose
  obtain rfl := of_reads_ident hname
  obtain rfl := of_reads_sign hopening
  exact ⟨[_, _, _], rfl, .mk⟩

theorem Association.takes_read : Takes Association.read Association.Derives := by
  intro eof ts a rest h
  rw [read] at h
  obtain ⟨left, r₁, _, hleft, h⟩ := h.of_bind
  obtain ⟨leftField, r₂, _, hleftField, h⟩ := h.of_bind
  obtain ⟨leftMult, r₃, _, hleftMult, h⟩ := h.of_bind
  obtain ⟨leftArm, r₄, _, hleftArm, h⟩ := h.of_bind
  obtain ⟨name, r₅, _, hname, h⟩ := h.of_bind
  obtain ⟨rightArm, r₆, _, hrightArm, h⟩ := h.of_bind
  obtain ⟨rightMult, r₇, _, hrightMult, h⟩ := h.of_bind
  obtain ⟨rightField, r₈, _, hrightField, h⟩ := h.of_bind
  obtain ⟨right, r₉, _, hright, h⟩ := h.of_bind
  obtain ⟨remarks, r₁₀, _, hremarks, h⟩ := h.of_bind
  obtain ⟨rfl, rfl⟩ := h.of_pure
  obtain rfl := of_reads_ident hleft
  obtain ⟨lefts, rfl, leftFieldDerived⟩ := takes_readFieldName hleftField
  obtain ⟨leftMults, rfl, leftMultDerived⟩ := Multiplicity.takes_read hleftMult
  obtain rfl := of_reads_sign hleftArm
  obtain rfl := of_reads_ident hname
  obtain rfl := of_reads_sign hrightArm
  obtain ⟨rightMults, rfl, rightMultDerived⟩ := Multiplicity.takes_read hrightMult
  obtain ⟨rights, rfl, rightFieldDerived⟩ := takes_readFieldName hrightField
  obtain rfl := of_reads_ident hright
  obtain ⟨marks, rfl, remarksDerived, _⟩ := remarks_of_reads hremarks
  let arms : List Lexeme :=
    ⟨.sign .leftArm, leftArm⟩ :: ⟨.ident name.name, name.span⟩ :: ⟨.sign .rightArm, rightArm⟩ ::
      (rightMults ++ (rights ++ ⟨.ident right.name, right.span⟩ :: marks))
  exact ⟨⟨.ident left.name, left.span⟩ :: (lefts ++ (leftMults ++ arms)), by simp [arms],
    .mk leftFieldDerived leftMultDerived rightMultDerived rightFieldDerived remarksDerived⟩

theorem Association.of_reads_all {as : List Association} (h : Reads (readAll eof ts) as rest) :
    ∃ us, ts = us ++ rest ∧ Many Derives us as := by
  induction ts using readAll.induct generalizing as with
  | case1 s r =>
      rw [readAll] at h
      obtain ⟨rfl, rfl⟩ : [] = as ∧ ⟨.sign .rbrace, s⟩ :: r = rest := h.of_pure
      exact ⟨[], rfl, .nil⟩
  | case2 =>
      rw [readAll] at h
      exact absurd h Reads.not_error
  | case3 l r noClose ih =>
      rw [readAll] at h
      · obtain ⟨a, r₁, lt, first, h⟩ := h.of_bind
        obtain ⟨more, r₂, _, all, h⟩ := h.of_bind
        obtain ⟨rfl, rfl⟩ : a :: more = as ∧ r₂ = rest := h.of_pure
        obtain ⟨us, hus, derived⟩ := takes_read first
        obtain ⟨vs, rfl, many⟩ := ih ⟨a, r₁, lt⟩ all
        refine ⟨us ++ vs, ?_, .cons derived many⟩
        rw [List.append_assoc]
        exact hus
      · exact noClose

/-! ### Specifications -/

theorem Item.of_reads {i : Item} (allowed : TrailingComma ts → trailing)
    (h : Reads (read eof ts) i rest) :
    ∃ us, ts = us ++ rest ∧ Derives (.exact trailing) us i := by
  rw [read.eq_def] at h
  split at h
  · next start r =>
    obtain ⟨key, r₁, _, hkey, h⟩ := h.of_bind
    obtain ⟨colon, r₂, _, hcolon, h⟩ := h.of_bind
    obtain ⟨value, r₃, _, hvalue, h⟩ := h.of_bind
    obtain ⟨rfl, rfl⟩ := h.of_pure
    obtain rfl := of_reads_stringLiteral hvalue
    obtain rfl := of_reads_sign hcolon
    obtain rfl := of_reads_ident hkey
    exact ⟨[_, _, _, _], rfl, .define⟩
  · next start r =>
    obtain ⟨path, r₁, _, hpath, h⟩ := h.of_bind
    obtain ⟨rfl, rfl⟩ := h.of_pure
    obtain rfl := of_reads_stringLiteral hpath
    exact ⟨[_, _], rfl, .inclusion⟩
  · next start r =>
    obtain ⟨c, r₁, _, hcategory, h⟩ := h.of_bind
    obtain ⟨rfl, rfl⟩ := h.of_pure
    obtain ⟨us, rfl, derived⟩ :=
      Category.of_reads (fun comma => allowed (comma.append_left [_])) hcategory
    exact ⟨⟨.keyword .category, start⟩ :: us, rfl, .category derived⟩
  · next start r =>
    obtain ⟨opening, r₁, _, hopening, h⟩ := h.of_bind
    obtain ⟨as, r₂, _, hall, h⟩ := h.of_bind
    obtain ⟨close, r₃, _, hclose, h⟩ := h.of_bind
    obtain ⟨rfl, rfl⟩ := h.of_pure
    obtain ⟨body, rfl, many⟩ := Association.of_reads_all hall
    obtain rfl := of_reads_sign hclose
    obtain rfl := of_reads_sign hopening
    exact ⟨⟨.keyword .associations, start⟩ :: ⟨.sign .lbrace, opening⟩ ::
      (body ++ [⟨.sign .rbrace, close⟩]), by simp, .associations many⟩
  · exact absurd h Reads.not_error
  · exact absurd h Reads.not_error

/-- Items that are read to the end are all that there is. -/
theorem Item.derives_of_readAll {items : List Item} (allowed : TrailingComma ts → trailing)
    (h : readAll eof ts = .ok items) : Many (Derives (.exact trailing)) ts items := by
  induction ts using readAll.induct generalizing items with
  | case1 ts empty =>
      rw [readAll, if_pos empty] at h
      cases h
      rw [List.isEmpty_iff.mp empty]
      exact .nil
  | case2 ts some ih =>
      rw [readAll, if_neg some] at h
      cases first : read eof ts with
      | error e =>
          rw [first] at h
          cases h
      | ok p =>
          rw [first] at h
          obtain ⟨i, r, lt⟩ := p
          change (readAll eof r >>= fun more => pure (i :: more)) = .ok items at h
          obtain ⟨us, rfl, derived⟩ := of_reads allowed ⟨lt, first⟩
          cases all : readAll eof r with
          | error e =>
              rw [all] at h
              cases h
          | ok more =>
              rw [all] at h
              cases h
              exact .cons derived (ih ⟨i, r, lt⟩ (fun comma => allowed (comma.append_left us)) all)

/-! ### Members in any order -/

theorem Many.mono {α : Type} {P Q : Phrase α} {as : List α} (le : ∀ ⦃ts a⦄, P ts a → Q ts a)
    (h : Many P ts as) : Many Q ts as := by
  induction h with
  | nil => exact .nil
  | cons first _ ih => exact .cons (le first) ih

theorem Asset.Derives.allowing {a : Asset} (h : Derives (.exact trailing) ts a) :
    Derives (.allowing trailing) ts a := by
  cases h with
  | concrete h =>
      obtain ⟨hparent, hremarks, hmembers, order⟩ := h
      exact .concrete (.mk hparent hremarks hmembers (order.imp fun _ _ _ => trivial))
  | abstract h =>
      obtain ⟨hparent, hremarks, hmembers, order⟩ := h
      exact .abstract (.mk hparent hremarks hmembers (order.imp fun _ _ _ => trivial))

/-- What is derived without members that look like remarks is derived with them as well. -/
theorem Item.Derives.allowing {i : Item} (h : Derives (.exact trailing) ts i) :
    Derives (.allowing trailing) ts i := by
  cases h with
  | define => exact .define
  | inclusion => exact .inclusion
  | category h =>
      obtain ⟨hremarks, hassets⟩ := h
      exact .category (.mk hremarks (hassets.mono fun _ _ => Asset.Derives.allowing))
  | associations h => exact .associations h

/-! ### Sources -/

theorem Spec.lexed_of_ofSource {source : String} {spec : Spec} (h : ofSource source = .ok spec) :
    ∃ ts, lexemes source = .ok ts := by
  rw [ofSource.eq_def] at h
  split at h
  · cases h
  · next ts lexed => exact ⟨ts, lexed⟩

/-- A specification that is read is derived from all lexemes of its source. -/
theorem Spec.derives_exact_of_ofSource {source : String} {spec : Spec}
    (lexed : lexemes source = .ok ts) (allowed : TrailingComma ts → trailing)
    (h : ofSource source = .ok spec) : Derives (.exact trailing) ts spec := by
  rw [ofSource, lexed] at h
  dsimp only at h
  cases all : Item.readAll (endOf source ts) ts with
  | error e =>
      rw [all] at h
      cases h
  | ok items =>
      rw [all] at h
      cases h
      exact Item.derives_of_readAll allowed all

theorem Spec.derives_allowing_of_ofSource {source : String} {spec : Spec}
    (lexed : lexemes source = .ok ts) (allowed : TrailingComma ts → trailing)
    (h : ofSource source = .ok spec) : Derives (.allowing trailing) ts spec :=
  (derives_exact_of_ofSource lexed allowed h).mono fun _ _ => Item.Derives.allowing

/-- The documented grammar with a comma allowed behind the last item of a list between brackets. -/
def Dialect.lenient : Dialect := allowing True

/-- Whatever is read is derived from all lexemes of its source in the lenient grammar. It is derived
from them in the documented grammar unless a comma stands in front of a closing sign. -/
theorem Spec.derives_of_ofSource {source : String} {spec : Spec} (h : ofSource source = .ok spec) :
    ∃ ts, lexemes source = .ok ts ∧ Derives .lenient ts spec ∧
      (Derives .documented ts spec ↔ ¬ TrailingComma ts) := by
  obtain ⟨ts, lexed⟩ := lexed_of_ofSource h
  refine ⟨ts, lexed, derives_allowing_of_ofSource lexed (fun _ => trivial) h, ?_⟩
  constructor
  · exact fun documented => documented.not_trailingComma id
  · exact fun noComma => derives_allowing_of_ofSource lexed noComma h

/-! ### Classifications with and without such a comma -/

namespace ClassifiedStep

def accepted : String := "category C { asset A { | a {C, I} -> b } }"

def acceptedLexemes : List Lexeme :=
  InfoStep.around
    [⟨.sign .pipe, ⟨23, 24, 1⟩⟩, ⟨.ident "a", ⟨25, 26, 1⟩⟩, ⟨.sign .lbrace, ⟨27, 28, 1⟩⟩,
      ⟨.ident "C", ⟨28, 29, 1⟩⟩, ⟨.sign .comma, ⟨29, 30, 1⟩⟩, ⟨.ident "I", ⟨31, 32, 1⟩⟩,
      ⟨.sign .rbrace, ⟨32, 33, 1⟩⟩, ⟨.sign .reaches, ⟨34, 36, 1⟩⟩, ⟨.ident "b", ⟨37, 38, 1⟩⟩]
    ⟨39, 40, 1⟩ ⟨41, 42, 1⟩

def closed : String := "category C { asset A { | a {C,} } }"

def closedLexemes : List Lexeme :=
  InfoStep.around
    [⟨.sign .pipe, ⟨23, 24, 1⟩⟩, ⟨.ident "a", ⟨25, 26, 1⟩⟩, ⟨.sign .lbrace, ⟨27, 28, 1⟩⟩,
      ⟨.ident "C", ⟨28, 29, 1⟩⟩, ⟨.sign .comma, ⟨29, 30, 1⟩⟩, ⟨.sign .rbrace, ⟨30, 31, 1⟩⟩]
    ⟨32, 33, 1⟩ ⟨34, 35, 1⟩

end ClassifiedStep

theorem Spec.derives_classifiedStep :
    ∃ spec, ofSource ClassifiedStep.accepted = .ok spec ∧
      Derives .documented ClassifiedStep.acceptedLexemes spec := by
  have read : (ofSource ClassifiedStep.accepted).isOk = true := by decide +kernel
  have lexed : lexemes ClassifiedStep.accepted = .ok ClassifiedStep.acceptedLexemes := by
    decide +kernel
  cases h : ofSource ClassifiedStep.accepted with
  | error e =>
      rw [h] at read
      cases read
  | ok spec =>
      obtain ⟨ts, lexed', _, documented⟩ := derives_of_ofSource h
      rw [lexed] at lexed'
      cases lexed'
      have tidy : Tidy ClassifiedStep.acceptedLexemes := by
        simp [ClassifiedStep.acceptedLexemes, InfoStep.around]
      exact ⟨spec, rfl, documented.mpr tidy.not_trailingComma⟩

/-- With a comma behind its only letter the classification is read, and nothing is derived from the
lexemes in the documented grammar. -/
theorem Spec.ofSource_closedList :
    lexemes ClassifiedStep.closed = .ok ClassifiedStep.closedLexemes ∧
      (ofSource ClassifiedStep.closed).isOk = true ∧
      ∀ spec, ¬ Derives .documented ClassifiedStep.closedLexemes spec := by
  refine ⟨by decide +kernel, by decide +kernel, ?_⟩
  intro spec derived
  have comma : TrailingComma ClassifiedStep.closedLexemes :=
    ⟨ClassifiedStep.closedLexemes.take 10, ⟨29, 30, 1⟩, .rbrace, ⟨30, 31, 1⟩,
      ClassifiedStep.closedLexemes.drop 12, by decide, by decide⟩
  exact derived.not_trailingComma id comma

end MetaAttack
