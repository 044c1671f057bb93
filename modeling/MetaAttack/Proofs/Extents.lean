import MetaAttack.Proofs.Concatenation
import MetaAttack.Proofs.Precedence
import MetaAttack.Proofs.Slices
import MetaAttack.Proofs.Spans

/-!
# The text of a term

The span of an expression or of a time, at whatever depth of a specification, goes from the first of
its lexemes to the last, parentheses around it included. So its text can be read on its own: it
gives the same term, at places that are moved by what stands in front of it.

## Implementation notes

A term is derived from lexemes that stand in a row in the source, and derivations are all that is
used of reading: the span is found along them, and so are the derivations of the terms within.
-/

namespace MetaAttack

variable {ts us : List Lexeme} {s s' : Span}

/-! ### Spans of phrases -/

/-- The lexemes are one behind the other. -/
structure InOrder (ts : List Lexeme) : Prop where
  ordered : ∀ l ∈ ts, l.span.start ≤ l.span.stop
  disjoint : ts.Pairwise fun l k => l.span.stop ≤ k.span.start

/-- A part of what is in order is in order. -/
theorem InOrder.part (h : InOrder ts) (within : us <:+: ts) : InOrder us :=
  ⟨fun l hl => h.ordered l (within.subset hl), h.disjoint.sublist within.sublist⟩

theorem InOrder.left (h : InOrder (ts ++ us)) : InOrder ts :=
  h.part (List.prefix_append ts us).isInfix

theorem InOrder.right (h : InOrder (ts ++ us)) : InOrder us :=
  h.part (List.suffix_append ts us).isInfix

theorem InOrder.behind {l : Lexeme} (h : InOrder (ts ++ l :: us)) : InOrder us :=
  h.right.part (List.suffix_cons l us).isInfix

namespace Span.Encloses

/-- The span of a lexeme encloses that lexeme. -/
theorem single (l : Lexeme) : l.span.Encloses [l] := ⟨l, l, rfl, rfl, rfl⟩

/-- The merged span of two phrases encloses them and what is between them. -/
theorem merge (mid : List Lexeme) (h : s.Encloses ts) (h' : s'.Encloses us)
    (order : InOrder (ts ++ mid ++ us)) : (s.merge s').Encloses (ts ++ mid ++ us) := by
  obtain ⟨a, b, first, last, rfl⟩ := h
  obtain ⟨a', b', first', last', rfl⟩ := h'
  have ha : a ∈ ts := List.mem_of_mem_head? first
  have hb' : b' ∈ us := List.mem_of_getLast? last'
  have apart : ∀ l ∈ ts, ∀ k ∈ us, l.span.stop ≤ k.span.start := fun l hl k hk =>
    (List.pairwise_append.mp order.disjoint).2.2 l (List.mem_append_left _ hl) k hk
  have starts : a.span.start ≤ a'.span.start :=
    (order.ordered a (by simp [ha])).trans (apart a ha a' (List.mem_of_mem_head? first'))
  have stops : b.span.stop ≤ b'.span.stop :=
    (apart b (List.mem_of_getLast? last) b' hb').trans (order.ordered b' (by simp [hb']))
  refine ⟨a, b', ?_, ?_, ?_⟩
  · rw [List.append_assoc, List.head?_append, first, Option.some_or]
  · rw [List.getLast?_append, last', Option.some_or]
  · rw [Span.merge, if_pos starts, max_eq_right stops]

/-- Two stretches with one lexeme between them, such as an operator. -/
theorem merge_around (l : Lexeme) (h : s.Encloses ts) (h' : s'.Encloses us)
    (order : InOrder (ts ++ l :: us)) : (s.merge s').Encloses (ts ++ l :: us) := by
  rw [List.append_cons] at order ⊢
  exact merge [l] h h' order

end Span.Encloses

namespace Expr

variable {e f : Expr} {level : Level}

/-- The span of an expression goes from its first lexeme to its last. -/
theorem Derives.encloses (h : Derives level ts e) (order : InOrder ts) : e.span.Encloses ts := by
  induction h with
  | field => exact .single _
  | @call n s opening close =>
      exact .merge [⟨.sign .lparen, opening⟩] (.single ⟨.ident n, s⟩)
        (.single ⟨.sign .rparen, close⟩) order
  | @group ts _ opening close =>
      rw [span_withSpan]
      exact .merge ts (.single ⟨.sign .lparen, opening⟩) (.single ⟨.sign .rparen, close⟩) order
  | primary _ ih | operand _ ih | chain _ ih => exact ih order
  | @closure ts e s _ ih =>
      have whole := order
      rw [← List.append_nil ts] at whole ⊢
      exact .merge [] (ih order.left) (.single ⟨.sign .star, s⟩) whole
  | @restrict ts e asset opening s close _ ih =>
      have cut : [⟨.sign .lbracket, opening⟩, ⟨.ident asset, s⟩, ⟨.sign .rbracket, close⟩] =
          [⟨.sign .lbracket, opening⟩, ⟨.ident asset, s⟩] ++
            [Lexeme.mk (.sign .rbracket) close] := rfl
      have inner := ih order.left
      rw [cut, ← List.append_assoc] at order ⊢
      exact .merge _ inner (.single ⟨.sign .rbracket, close⟩) order
  | collect _ _ ihl ihr | combine _ _ _ ihl ihr =>
      exact .merge_around _ (ihl order.left) (ihr order.behind) order

end Expr

namespace Ttc

variable {t : Ttc} {level : Level} {trailing : Prop}

/-- A number is framed by its lexemes, of which a fraction takes three. -/
theorem encloses_of_numeral {v : Float} (h : Numeral ts (v, s)) (order : InOrder ts) :
    s.Encloses ts := by
  cases h with
  | @whole w => exact .single ⟨.integer w, s⟩
  | @fraction w f s dot s' =>
      exact .merge_around ⟨.sign .dot, dot⟩ (.single ⟨.integer w, s⟩) (.single ⟨.integer f, s'⟩)
        order

theorem Derives.encloses (h : Derives trailing level ts t) (order : InOrder ts) :
    t.span.Encloses ts := by
  induction h with
  | number h => exact encloses_of_numeral h order
  | bare => exact .single _
  | @applied n s opening close ts vs =>
      exact .merge (⟨.sign .lparen, opening⟩ :: ts) (.single ⟨.ident n, s⟩)
        (.single ⟨.sign .rparen, close⟩) order
  | @group ts _ opening close =>
      rw [span_withSpan]
      exact .merge ts (.single ⟨.sign .lparen, opening⟩) (.single ⟨.sign .rparen, close⟩) order
  | atom _ ih | power _ ih | product _ ih => exact ih order
  | raise _ _ ihl ihr | multiply _ _ _ ihl ihr | add _ _ _ ihl ihr =>
      exact .merge_around _ (ihl order.left) (ihr order.behind) order

end Ttc

/-! ### Terms -/

/-- What has a grammar of its own within a specification. -/
inductive Term
  | expr (e : Expr)
  | time (t : Ttc)

namespace Term

/-- The place of a term. -/
def span : Term → Span
  | expr e => e.span
  | time t => t.span

/-- A term in another place. -/
def relocate (f : Span → Span) : Term → Term
  | expr e => expr (e.relocate f)
  | time t => time (t.relocate f)

/-- What term the lexemes are. -/
def Derives (ts : List Lexeme) : Term → Prop
  | expr e => Expr.Derives .sum ts e
  | time t => Ttc.Derives True .sum ts t

/-- The reader of such terms takes all the lexemes for the term. -/
def ReadFrom (ts : List Lexeme) : Term → Prop
  | expr e => ∀ eof, Reads (Expr.read eof ts) e []
  | time t => ∀ eof, Reads (Ttc.read eof ts) t []

/-- Either way a term covers the lexemes that it was read from. -/
theorem Derives.encloses {x : Term} (h : x.Derives ts) (order : InOrder ts) :
    x.span.Encloses ts := by
  cases x with
  | expr e => exact Expr.Derives.encloses h order
  | time t => exact Ttc.Derives.encloses h order

end Term

/-! ### Terms within -/

/-- The expression and all expressions within it. -/
def Expr.terms : Expr → List Term
  | field n s => [.expr (field n s)]
  | call n s => [.expr (call n s)]
  | collect l r s => .expr (collect l r s) :: (l.terms ++ r.terms)
  | combine op l r s => .expr (combine op l r s) :: (l.terms ++ r.terms)
  | closure e s => .expr (closure e s) :: e.terms
  | restrict e a s => .expr (restrict e a s) :: e.terms

/-- The time and all times within it. -/
def Ttc.terms : Ttc → List Term
  | number v s => [.time (number v s)]
  | distribution n vs s => [.time (distribution n vs s)]
  | binary op l r s => .time (binary op l r s) :: (l.terms ++ r.terms)

/-- The terms in each thing that a step or variable is made of. -/
def Requires.terms (q : Requires) : List Term := q.exprs.flatMap Expr.terms

def Reaches.terms (q : Reaches) : List Term := q.exprs.flatMap Expr.terms

/-- The time comes first, then what is required and what is reached. -/
def AttackStep.terms (s : AttackStep) : List Term :=
  s.ttc.toList.flatMap Ttc.terms ++ s.requires.toList.flatMap Requires.terms ++
    s.reaches.toList.flatMap Reaches.terms

def Variable.terms (v : Variable) : List Term := v.expr.terms

/-- The terms of all steps of an asset, then those of all its variables. -/
def Asset.terms (a : Asset) : List Term :=
  a.steps.flatMap AttackStep.terms ++ a.bindings.flatMap Variable.terms

/-- Remarks have no terms. -/
def Category.terms (c : Category) : List Term := c.assets.flatMap Asset.terms

def Declaration.terms : Declaration → List Term
  | category c => c.terms
  | define _ | associations _ => []

/-- Only categories have terms. -/
def Item.terms : Item → List Term
  | declaration d => d.terms
  | inclusion _ => []

/-- The expressions and times of a specification, with all that are within them. -/
def Spec.terms (s : Spec) : List Term := s.items.flatMap Item.terms

/-! ### Where terms are -/

variable {xs ys : List Term}

/-- Each of the terms is derived from some of the lexemes that stand in a row. -/
def Contain (ts : List Lexeme) (xs : List Term) : Prop :=
  ∀ x ∈ xs, ∃ us, us <:+: ts ∧ x.Derives us

namespace Contain

theorem nil : Contain ts [] := fun _ h => nomatch h

theorem cons {x : Term} (h : x.Derives ts) (more : Contain ts xs) : Contain ts (x :: xs) :=
  List.forall_mem_cons.mpr ⟨⟨ts, List.infix_refl ts, h⟩, more⟩

theorem append (h : Contain ts xs) (h' : Contain ts ys) : Contain ts (xs ++ ys) :=
  List.forall_mem_append.mpr ⟨h, h'⟩

theorem subset (h : Contain ts xs) (fewer : ys ⊆ xs) : Contain ts ys := fun x hx => h x (fewer hx)

/-- What a part of the lexemes contains, all of them contain. -/
theorem widen (h : Contain us xs) (within : us <:+: ts) : Contain ts xs := by
  intro x hx
  obtain ⟨vs, inner, derived⟩ := h x hx
  exact ⟨vs, inner.trans within, derived⟩

section

variable {α : Type} {P : Phrase α} {terms : α → List Term}

/-- What each of two phrases contains, with a lexeme between them. -/
theorem around (l : Lexeme) (h : Contain ts xs) (h' : Contain us ys) :
    Contain (ts ++ l :: us) (xs ++ ys) := by
  have behind : us <:+: ts ++ l :: us := (List.suffix_cons l us).isInfix.trans
    (List.suffix_append ts (l :: us)).isInfix
  exact (h.widen (List.prefix_append ..).isInfix).append (h'.widen behind)

/-- From each entry to all of them; lists with commas and optional parts go the same way. -/
theorem many {as : List α} (each : ∀ ⦃ts a⦄, P ts a → Contain ts (terms a)) (h : Many P ts as) :
    Contain ts (as.flatMap terms) := by
  induction h with
  | nil => exact nil
  | cons first _ ih =>
      exact ((each first).widen (List.prefix_append ..).isInfix).append
        (ih.widen (List.suffix_append ..).isInfix)

theorem listed {as : List α} (each : ∀ ⦃ts a⦄, P ts a → Contain ts (terms a))
    (h : Listed P ts as) : Contain ts (as.flatMap terms) := by
  induction h with
  | last h => exact (each h).append nil
  | cons first _ ih => exact (each first).around _ ih

theorem optional {o : Option α} (each : ∀ ⦃ts a⦄, P ts a → Contain ts (terms a))
    (h : Optional P ts o) : Contain ts (o.toList.flatMap terms) := by
  cases h with
  | absent => exact nil
  | present h => exact (each h).append nil

end

end Contain

namespace Expr

variable {e : Expr} {level : Level}

/-- An expression of any level is one of the loosest. -/
theorem Derives.loosen (h : Derives level ts e) : Derives .sum ts e := by
  cases level with
  | sum => exact h
  | chain => exact .chain h
  | operand => exact .chain (.operand h)
  | primary => exact .chain (.operand (.primary h))

/-- Parentheses change the place of a term and nothing below it. -/
theorem terms_withSpan (e : Expr) (s : Span) :
    (e.withSpan s).terms = .expr (e.withSpan s) :: e.terms.tail := by
  cases e <;> rfl

/-- Every subexpression is derived from a part of the lexemes. -/
theorem Derives.contain (h : Derives level ts e) : Contain ts e.terms := by
  induction h with
  | field => exact .cons (Derives.field.loosen) .nil
  | call => exact .cons (Derives.call.loosen) .nil
  | @group ts e opening close inner ih =>
      rw [terms_withSpan]
      have within := ih.subset (List.tail_sublist _).subset
      exact .cons (Derives.group inner).loosen (within.widen ⟨[_], [_], rfl⟩)
  | primary _ ih | operand _ ih | chain _ ih => exact ih
  | closure inner ih =>
      exact .cons (Derives.closure inner).loosen (ih.widen (List.prefix_append ..).isInfix)
  | restrict inner ih =>
      exact .cons (Derives.restrict inner).loosen (ih.widen (List.prefix_append ..).isInfix)
  | collect lhs rhs ihl ihr => exact .cons (Derives.collect lhs rhs).loosen (ihl.around _ ihr)
  | combine hop lhs rhs ihl ihr => exact .cons (Derives.combine hop lhs rhs) (ihl.around _ ihr)

end Expr

namespace Ttc

variable {t : Ttc} {level : Level}

/-- A time of any level is one of the loosest. -/
theorem Derives.loosen {trailing : Prop} (h : Derives trailing level ts t) :
    Derives trailing .sum ts t := by
  cases level with
  | sum => exact h
  | product => exact .product h
  | power => exact .product (.power h)
  | atom => exact .product (.power (.atom h))

theorem terms_withSpan (t : Ttc) (s : Span) :
    (t.withSpan s).terms = .time (t.withSpan s) :: t.terms.tail := by
  cases t <;> rfl

theorem Derives.contain (h : Derives True level ts t) : Contain ts t.terms := by
  induction h with
  | number h => exact .cons (Derives.number h).loosen .nil
  | bare => exact .cons Derives.bare.loosen .nil
  | applied params => exact .cons (Derives.applied params).loosen .nil
  | group inner ih =>
      rw [terms_withSpan]
      have within := ih.subset (List.tail_sublist _).subset
      exact .cons (Derives.group inner).loosen (within.widen ⟨[_], [_], rfl⟩)
  | atom _ ih | power _ ih | product _ ih => exact ih
  | raise base exponent ihl ihr =>
      exact .cons (Derives.raise base exponent).loosen (ihl.around _ ihr)
  | multiply hop lhs rhs ihl ihr =>
      exact .cons (Derives.multiply hop lhs rhs).loosen (ihl.around _ ihr)
  | add hop lhs rhs ihl ihr => exact .cons (Derives.add hop lhs rhs) (ihl.around _ ihr)

end Ttc

/-! ### Terms in a specification -/

theorem Expr.contain_of_listed {es : List Expr} (h : Listed (Expr.Derives .sum) ts es) :
    Contain ts (es.flatMap terms) :=
  Contain.listed (fun _ _ h => h.contain) h

theorem Requires.Derives.contain {q : Requires} (h : Requires.Derives ts q) :
    Contain ts q.terms := by
  obtain ⟨es⟩ := h
  exact (Expr.contain_of_listed es).widen (List.suffix_cons ..).isInfix

theorem Reaches.Derives.contain {q : Reaches} (h : Reaches.Derives ts q) : Contain ts q.terms := by
  cases h with
  | reaches es | appends es =>
      exact (Expr.contain_of_listed es).widen (List.suffix_cons ..).isInfix

theorem Ttc.Bracketed.contain {t : Option Ttc} (h : Ttc.Bracketed True ts t) :
    Contain ts (t.toList.flatMap Ttc.terms) := by
  cases h with
  | absent | empty => exact .nil
  | full h => exact (h.contain.append .nil).widen ⟨[_], [_], rfl⟩

/-- The parts of a step stand next to each other, so each contains its own terms. -/
theorem AttackStep.Derives.contain {s : AttackStep} (h : AttackStep.Derives True ts s) :
    Contain ts s.terms := by
  cases h with
  | @mk kinds tags cias ttcs marks needs leads _ name _ s _ _ _ _ _ _ _ _ _ httc _ hrequires
      hreaches =>
      have asked := Contain.optional (fun _ _ h => Requires.Derives.contain h) hrequires
      have led := Contain.optional (fun _ _ h => Reaches.Derives.contain h) hreaches
      refine ((httc.contain.widen ?ttcs).append (asked.widen ?needs)).append (led.widen ?leads)
      · exact ⟨kinds ++ ⟨.ident name, s⟩ :: (tags ++ cias), marks ++ (needs ++ leads), by simp⟩
      · exact ⟨kinds ++ ⟨.ident name, s⟩ :: (tags ++ cias ++ ttcs ++ marks), leads, by simp⟩
      · exact ⟨kinds ++ ⟨.ident name, s⟩ :: (tags ++ cias ++ ttcs ++ marks ++ needs), [], by simp⟩

theorem Variable.Derives.contain {v : Variable} (h : Variable.Derives ts v) :
    Contain ts v.terms := by
  obtain ⟨e⟩ := h
  exact e.contain.widen ⟨[_, _, _], [], List.append_nil _⟩

/-- The terms of a member. -/
def Member.terms : Member → List Term
  | step s => s.terms
  | binding v => v.terms

theorem Member.Derives.contain {m : Member} (h : Member.Derives True ts m) :
    Contain ts m.terms := by
  cases h with
  | step h => exact h.contain
  | binding h => exact h.contain

/-- The steps and the variables of an asset are among its members. -/
theorem Member.terms_subset (ms : List Member) :
    (ms.filterMap toStep?).flatMap AttackStep.terms ++
      (ms.filterMap toBinding?).flatMap Variable.terms ⊆ ms.flatMap terms := by
  intro x hx
  rcases List.mem_append.mp hx with hx | hx
  · obtain ⟨s, hs, hx⟩ := List.mem_flatMap.mp hx
    obtain ⟨m, hm, found⟩ := List.mem_filterMap.mp hs
    refine List.mem_flatMap.mpr ⟨m, hm, ?_⟩
    cases m <;> cases found
    exact hx
  · obtain ⟨v, hv, hx⟩ := List.mem_flatMap.mp hx
    obtain ⟨m, hm, found⟩ := List.mem_filterMap.mp hv
    refine List.mem_flatMap.mpr ⟨m, hm, ?_⟩
    cases m <;> cases found
    exact hx

/-- Members in any order, since each stands on its own. -/
theorem Asset.Named.contain {a : Asset} {isAbstract : Bool} {start : Span}
    (h : Asset.Named .lenient isAbstract start ts a) : Contain ts a.terms := by
  cases h with
  | @mk parents marks body name s opening close _ _ members _ _ hmembers =>
      have inside := Contain.many (fun _ _ h => Member.Derives.contain h) hmembers
      exact (inside.subset (Member.terms_subset members)).widen
        ⟨⟨.ident name, s⟩ :: (parents ++ (marks ++ [⟨.sign .lbrace, opening⟩])),
          [⟨.sign .rbrace, close⟩], by simp⟩

theorem Asset.Derives.contain {a : Asset} (h : Asset.Derives .lenient ts a) :
    Contain ts a.terms := by
  cases h with
  | concrete named => exact named.contain.widen ⟨[_], [], List.append_nil _⟩
  | abstract named => exact named.contain.widen ⟨[_, _], [], List.append_nil _⟩

theorem Category.Derives.contain {c : Category} (h : Category.Derives .lenient ts c) :
    Contain ts c.terms := by
  cases h with
  | @mk marks body name start s opening close _ _ _ hassets =>
      exact (Contain.many (fun _ _ h => Asset.Derives.contain h) hassets).widen
        ⟨⟨.keyword .category, start⟩ :: ⟨.ident name, s⟩ :: (marks ++ [⟨.sign .lbrace, opening⟩]),
          [⟨.sign .rbrace, close⟩], by simp⟩

theorem Item.Derives.contain {i : Item} (h : Item.Derives .lenient ts i) : Contain ts i.terms := by
  cases h with
  | category h => exact h.contain
  | define | inclusion | associations => exact .nil

/-- Every term of a specification is derived from lexemes that stand in a row in its source. -/
theorem Spec.contain_of_ofSource {source : String} {spec : Spec} (lexed : lexemes source = .ok ts)
    (h : ofSource source = .ok spec) : Contain ts spec.terms :=
  Contain.many (fun _ _ h => Item.Derives.contain h)
    (derives_allowing_of_ofSource lexed (fun _ => trivial) h)

/-! ### Reading the text of a term -/

/-- The lexemes of a source are in order. -/
theorem inOrder_of_lexemes {source : String} (lexed : lexemes source = .ok ts) : InOrder ts := by
  have covers := covers_scan source
  rw [eq_map_of_lexemesOf lexed] at covers
  exact ⟨fun l hl => (placed_of_mem_scan (mem_scan_of_lexemes lexed hl)).nonempty.le,
    List.pairwise_map.mp covers.disjoint⟩

/-- Where a reader that agrees takes all of the lexemes, so does the other. -/
theorem Agree.exists_reads {α : Type} {n n' : Nat} {v : Views} {move : (Span → Span) → α → α}
    {r : Except ParseError (Parsed α n)} {r' : Except ParseError (Parsed α n')} {a : α}
    (h : Agree v move r r') (read : Reads r' a []) :
    ∃ b, Reads r b [] ∧ move v.left b = move v.right a := by
  cases h with
  | error => exact absurd read Reads.not_error
  | @ok p p' value rest =>
      obtain ⟨rfl, left⟩ := read.of_pure
      rw [left] at rest
      have all : p.rest = [] := by
        generalize p.rest = us at rest
        cases rest
        rfl
      exact ⟨p.value, all ▸ .pure p, value⟩

/-- What is derived from lexemes that are moved is read from them where they were, and moved
along. -/
theorem Term.Derives.exists_readFrom {x : Term} {bytes lines : Nat}
    (h : x.Derives (ts.map (Lexeme.relocate (.shift bytes lines)))) :
    ∃ y : Term, y.ReadFrom ts ∧ y.relocate (.shift bytes lines) = x := by
  have alike := alike_shift bytes lines ts
  cases x with
  | expr e =>
      have agree : Agree (.shifted bytes lines) Expr.relocate (Expr.read .nowhere ts) _ :=
        Expr.respected_read rfl alike
      obtain ⟨f, read, same⟩ := agree.exists_reads (Expr.Derives.reads_all h _)
      obtain ⟨us, rfl, derived⟩ := Expr.takes_read read
      rw [List.append_nil]
      exact ⟨.expr f, derived.reads_all, congrArg expr (same.trans (by simp [Views.shifted]))⟩
  | time t =>
      have agree : Agree (.shifted bytes lines) Ttc.relocate (Ttc.read .nowhere ts) _ :=
        Ttc.respected_read rfl alike
      obtain ⟨u, read, same⟩ := agree.exists_reads (Ttc.Derives.reads_all h _)
      obtain ⟨us, rfl, derived⟩ : ∃ us, ts = us ++ [] ∧ Ttc.Derives True .sum us u :=
        Ttc.derives_of_reads (fun _ => trivial) read
      rw [List.append_nil]
      exact ⟨.time u, derived.reads_all, congrArg time (same.trans (by simp [Views.shifted]))⟩

/-- The text of an expression or of a time, anywhere in a specification, can be read on its own, to
its end. It gives the same term, at places that are moved by the bytes and the lines in front of
it. -/
theorem Spec.text_of_mem_terms {source : String} {spec : Spec} (h : ofSource source = .ok spec) :
    ∀ x ∈ spec.terms, ∃ (text : String) (us : List Lexeme) (y : Term),
      x.span.Delimits source text ∧ lexemes text = .ok us ∧ y.ReadFrom us ∧
        y.relocate (.shift x.span.start (x.span.line - 1)) = x := by
  intro x hx
  obtain ⟨ts, lexed⟩ := lexed_of_ofSource h
  obtain ⟨us, ⟨before, after, whole⟩, derived⟩ := contain_of_ofSource lexed h x hx
  have order : InOrder us := (inOrder_of_lexemes lexed).part ⟨before, after, whole⟩
  rw [← whole] at lexed
  obtain ⟨text, us', delimits, lexed', moved⟩ := (derived.encloses order).exists_slice lexed
  rw [← moved] at derived
  obtain ⟨y, read, same⟩ := derived.exists_readFrom
  exact ⟨text, us', y, delimits, lexed', read, same⟩

/-! ### A time and an expression on their own -/

namespace Sprawling

/-- A specification with terms over several lines, and comments inside. -/
def source : String :=
  "category C \x7b asset A \x7b\n" ++
    "  | s [Gamma(1, 2) - (3 + 1.5)] -> (b // next\n    .c)*[D], e\n\x7d \x7d"

/-- The sum between parentheses, and the chain between parentheses that goes over two lines. -/
def texts : List (Span × String) :=
  [(⟨44, 53, 2⟩, "(3 + 1.5)"), (⟨58, 76, 2⟩, "(b // next\n    .c)")]

/-- Each text stands in the source where the span of its term says. -/
theorem delimits_texts : ∀ p ∈ texts, p.1.Delimits source p.2 := by
  intro p hp
  rcases List.mem_pair.mp hp with rfl | rfl
  · refine ⟨"category C \x7b asset A \x7b\n  | s [Gamma(1, 2) - ",
      "] -> (b // next\n    .c)*[D], e\n\x7d \x7d", ?_⟩
    decide +kernel
  · refine ⟨"category C \x7b asset A \x7b\n  | s [Gamma(1, 2) - (3 + 1.5)] -> ",
      "*[D], e\n\x7d \x7d", ?_⟩
    decide +kernel

end Sprawling

open Sprawling in
/-- A comment and the end of a line within a term do not matter. -/
theorem Spec.text_of_mem_terms_sprawling :
    ∃ spec, ofSource source = .ok spec ∧ ∀ p ∈ texts, ∃ x ∈ spec.terms, x.span = p.1 ∧
      ∃ us y, lexemes p.2 = .ok us ∧ Term.ReadFrom us y ∧
        y.relocate (.shift p.1.start (p.1.line - 1)) = x := by
  have spans : (ofSource source).toOption.map (·.terms.map Term.span) =
      some [⟨30, 53, 2⟩, ⟨30, 41, 2⟩, ⟨44, 53, 2⟩, ⟨45, 46, 2⟩, ⟨49, 52, 2⟩, ⟨58, 80, 2⟩,
        ⟨58, 77, 2⟩, ⟨58, 76, 2⟩, ⟨59, 60, 2⟩, ⟨74, 75, 3⟩, ⟨82, 83, 3⟩] := by
    decide +kernel
  cases h : ofSource source with
  | error e =>
      rw [h] at spans
      cases spans
  | ok spec =>
      rw [h] at spans
      refine ⟨spec, rfl, fun p hp => ?_⟩
      have all : spec.terms.map Term.span = _ := Option.some.inj spans
      have within : p.1 ∈ spec.terms.map Term.span := by
        rw [all]
        rcases List.mem_pair.mp hp with rfl | rfl <;> simp
      obtain ⟨x, hx, span⟩ := List.mem_map.mp within
      obtain ⟨text, us, y, delimits, lexed, read, same⟩ := text_of_mem_terms h x hx
      rw [span] at delimits same
      obtain rfl := delimits.unique (delimits_texts p hp)
      exact ⟨x, hx, span, us, y, lexed, read, same⟩

end MetaAttack
