import MetaAttack.Proofs.Precedence
import MetaAttack.Proofs.Spelling

/-!
# Expressions written out

The text of an expression can always be read back, and what is read has the same text. It is the
same expression only where every chain of dots stands alone, at the left of a dot, or as an operand
of a set operator: at the right of a dot or under a suffix a chain is written without the
parentheses that it was read with, and comes back regrouped.

## Implementation notes

A text without spans cannot give them back, so expressions are compared without places. Reading is
described on tokens that stand nowhere, and carried over to where the text has them.
-/

namespace MetaAttack

open Piece

/-! ### Set operators between blanks -/

namespace SetOp

/-- The sign of an operator. -/
def sign : SetOp → Sign
  | union => .union
  | intersection => .intersection
  | difference => .minus

theorem ofToken?_sign (op : SetOp) : ofToken? (.sign op.sign) = some op := by cases op <;> rfl

theorem toList_text (op : SetOp) : op.text.toList = op.sign.chars := by cases op <;> decide

end SetOp

namespace Expr

variable {ts us : List Lexeme} {e f l r : Expr} {level : Level}

/-! ### The tokens of a text -/

/-- The tokens of the text of an expression. -/
def tokens : Expr → List Token
  | field n _ => [.ident n.name]
  | call n _ => [.ident n.name, .sign .lparen, .sign .rparen]
  | collect l r _ => l.tokens ++ .sign .dot :: r.tokens
  | combine op l r _ =>
      .sign .lparen :: (l.tokens ++ .sign op.sign :: r.tokens) ++ [.sign .rparen]
  | closure e _ => e.tokens ++ [.sign .star]
  | restrict e a _ => e.tokens ++ [.sign .lbracket, .ident a.name, .sign .rbracket]

/-- The names in an expression. -/
def names : Expr → List String
  | field n _ | call n _ => [n.name]
  | collect l r _ | combine _ l r _ => l.names ++ r.names
  | closure e _ => e.names
  | restrict e a _ => e.names ++ [a.name]

theorem names_withSpan (e : Expr) (s : Span) : (e.withSpan s).names = e.names := by
  cases e <;> rfl

/-- The names in an expression are names among its lexemes. -/
theorem Derives.exists_mem (h : Derives level ts e) {n : String} (hn : n ∈ e.names) :
    ∃ s, ⟨.ident n, s⟩ ∈ ts := by
  induction h with
  | @field _ s =>
      obtain rfl := List.mem_singleton.mp hn
      exact ⟨s, List.mem_singleton_self _⟩
  | @call _ s =>
      obtain rfl := List.mem_singleton.mp hn
      exact ⟨s, List.mem_cons_self⟩
  | group _ ih =>
      obtain ⟨s, found⟩ := ih (by rwa [names_withSpan] at hn)
      exact ⟨s, List.mem_append_left _ (List.mem_cons_of_mem _ found)⟩
  | primary _ ih | operand _ ih | chain _ ih => exact ih hn
  | closure _ ih =>
      obtain ⟨s, found⟩ := ih hn
      exact ⟨s, List.mem_append_left _ found⟩
  | @restrict _ _ _ _ s _ _ ih =>
      rcases List.mem_append.mp hn with inner | asset
      · obtain ⟨s, found⟩ := ih inner
        exact ⟨s, List.mem_append_left _ found⟩
      · obtain rfl := List.mem_singleton.mp asset
        exact ⟨s, by simp⟩
  | collect _ _ ihl ihr | combine _ _ _ ihl ihr =>
      rcases List.mem_append.mp hn with left | right
      · obtain ⟨s, found⟩ := ihl left
        exact ⟨s, List.mem_append_left _ found⟩
      · obtain ⟨s, found⟩ := ihr right
        exact ⟨s, List.mem_append_right _ (List.mem_cons_of_mem _ found)⟩

/-- A text starts with a word or with a parenthesis. -/
theorem head_text (h : ∀ n ∈ e.names, IsName n) (ds : List Char) :
    (e.text.toList ++ ds).head? ≠ some '.' := by
  have name {n : String} (hn : IsName n) (ds : List Char) : (n.toList ++ ds).head? ≠ some '.' := by
    obtain ⟨c, r, text, start, -⟩ := hn.word
    rw [text]
    rintro head
    obtain rfl : c = '.' := Option.some.inj head
    cases start
  induction e generalizing ds with
  | field n => exact name (h n.name List.mem_cons_self) ds
  | call n =>
      rw [text, String.toList_append, List.append_assoc]
      exact name (h n.name List.mem_cons_self) _
  | collect l r _ ihl =>
      simp only [text, String.toList_append, List.append_assoc]
      exact ihl (fun n hn => h n (List.mem_append_left _ hn)) _
  | combine =>
      simp only [text, String.toList_append, List.append_assoc]
      intro head
      cases head
  | closure e _ ih =>
      rw [text, String.toList_append, List.append_assoc]
      exact ih h _
  | restrict e _ _ ih =>
      simp only [text, String.toList_append, List.append_assoc]
      exact ih (fun n hn => h n (List.mem_append_left _ hn)) _

theorem spells_text (h : ∀ n ∈ e.names, IsName n) : Spells WordEnds e.text.toList e.tokens := by
  induction e with
  | field n => exact (h n.name List.mem_cons_self).spells
  | call n =>
      have name := (h n.name List.mem_cons_self).spells
      simpa [text, tokens, Sign.chars] using
        (name.behind (s := .lparen) (by decide)).behind (s := .rparen) (by decide)
  | collect l r _ ihl ihr =>
      have left := ihl fun n hn => h n (List.mem_append_left _ hn)
      have names : ∀ n ∈ r.names, IsName n := fun n hn => h n (List.mem_append_right _ hn)
      simp only [text, String.toList_append, List.append_assoc]
      exact left.append (Sign.spells_dot.append (ihr names) fun ds _ => head_text names ds)
        fun _ _ => wordEnds_sign .dot _
  | combine op l r _ ihl ihr =>
      have left := ihl fun n hn => h n (List.mem_append_left _ hn)
      have right := ihr fun n hn => h n (List.mem_append_right _ hn)
      have inner := (left.between op.sign right).behind (P := WordEnds) (s := .rparen) (by decide)
      simpa [text, tokens, op.toList_text, Sign.chars] using
        inner.inFront (s := .lparen) (by decide)
  | closure e _ ih =>
      rw [text, String.toList_append]
      exact (ih h).behind (s := .star) (by decide)
  | restrict e a _ ih =>
      have inner := ih fun n hn => h n (List.mem_append_left _ hn)
      have name := (h a.name (List.mem_append_right _ (List.mem_singleton_self _))).spells
      have closed := name.behind (P := WordEnds) (s := .rbracket) (by decide)
      simp only [text, String.toList_append, List.append_assoc]
      exact inner.append (closed.inFront (s := .lbracket) (by decide)) fun _ _ =>
        wordEnds_sign .lbracket _

/-! ### Regrouping -/

/-- Whether the expression is a chain of dots. -/
def isChain : Expr → Bool
  | collect .. => true
  | _ => false

/-- No chain stands at the right of a dot or under a suffix. -/
def flat : Expr → Bool
  | field .. | call .. => true
  | collect l r _ => l.flat && r.flat && !r.isChain
  | combine _ l r _ => l.flat && r.flat
  | closure e _ | restrict e _ _ => e.flat && !e.isChain

/-- The chain of both, grouped from the left. -/
def link (l : Expr) : Expr → Expr
  | collect a b _ => collect (link l a) b .nowhere
  | r => collect l r .nowhere

/-- Applies a suffix to the last link of a chain. -/
def onLast (suffix : Expr → Expr) : Expr → Expr
  | collect l r _ => collect l (suffix r) .nowhere
  | e => suffix e

/-- The expression, without places, that its text stands for. -/
def regroup : Expr → Expr
  | field n _ => field ⟨n.name, .nowhere⟩ .nowhere
  | call n _ => call ⟨n.name, .nowhere⟩ .nowhere
  | collect l r _ => link l.regroup r.regroup
  | combine op l r _ => combine op l.regroup r.regroup .nowhere
  | closure e _ => onLast (closure · .nowhere) e.regroup
  | restrict e a _ => onLast (restrict · ⟨a.name, .nowhere⟩ .nowhere) e.regroup

theorem isChain_bare (e : Expr) : e.bare.isChain = e.isChain := by cases e <;> rfl

theorem flat_bare (e : Expr) : e.bare.flat = e.flat := by
  induction e with
  | field | call => rfl
  | collect l r s ihl ihr =>
      change (l.bare.flat && r.bare.flat && !r.bare.isChain) = _
      rw [ihl, ihr, isChain_bare, flat]
  | combine op l r s ihl ihr =>
      change (l.bare.flat && r.bare.flat) = _
      rw [ihl, ihr, flat]
  | closure e s ih | restrict e a s ih =>
      change (e.bare.flat && !e.bare.isChain) = _
      rw [ih, isChain_bare, flat]

theorem text_relocate (f : Span → Span) (e : Expr) : (e.relocate f).text = e.text := by
  induction e with
  | field | call => rfl
  | collect l r s ihl ihr | combine op l r s ihl ihr => rw [relocate, text, ihl, ihr, text]
  | closure e s ih | restrict e a s ih => rw [relocate, text, ih]; rfl

theorem link_of_single (l : Expr) (single : r.isChain = false) :
    link l r = collect l r .nowhere := by
  cases r <;> first | rfl | cases single

theorem onLast_of_single (suffix : Expr → Expr) (single : e.isChain = false) :
    onLast suffix e = suffix e := by
  cases e <;> first | rfl | cases single

theorem text_link (l r : Expr) : (link l r).text = l.text ++ "." ++ r.text := by
  induction r with
  | collect a b s iha _ =>
      rw [link, text, iha, text]
      simp only [String.append_assoc]
  | _ => rfl

theorem text_onLast {suffix : Expr → Expr} {t : String} (h : ∀ e, (suffix e).text = e.text ++ t)
    (e : Expr) : (onLast suffix e).text = e.text ++ t := by
  cases e with
  | collect l r s => rw [onLast, text, h, text, ← String.append_assoc]
  | _ => exact h _

/-- Regrouping does not show in the text. -/
theorem text_regroup (e : Expr) : e.regroup.text = e.text := by
  induction e with
  | field | call => rfl
  | collect l r _ ihl ihr => rw [regroup, text_link, ihl, ihr, text]
  | combine op l r _ ihl ihr => rw [regroup, text, ihl, ihr, text]
  | closure e _ ih => rw [regroup, text_onLast (t := "*") fun _ => rfl, ih, text]
  | restrict e a _ ih =>
      rw [regroup, text_onLast (t := "[" ++ a.name ++ "]") fun e => ?_, ih, text]
      · simp only [String.append_assoc]
      · simp only [text, String.append_assoc]

theorem flat_link (hl : l.flat) (hr : r.flat) : (link l r).flat := by
  induction r with
  | collect a b _ iha _ =>
      simp only [flat, Bool.and_eq_true] at hr
      simp only [link, flat, Bool.and_eq_true]
      exact ⟨⟨iha hr.1.1, hr.1.2⟩, hr.2⟩
  | _ => simp_all [link, flat, isChain]

theorem flat_onLast {suffix : Expr → Expr} (single : ∀ e, (suffix e).isChain = false)
    (h : ∀ e, (suffix e).flat = (e.flat && !e.isChain)) (he : e.flat) : (onLast suffix e).flat := by
  cases e with
  | collect l r =>
      simp only [flat, Bool.and_eq_true] at he
      simp only [onLast, flat, h, single, Bool.and_eq_true]
      exact ⟨⟨he.1.1, he.1.2, he.2⟩, rfl⟩
  | _ => exact (h _).trans (by simp [he, isChain])

theorem flat_regroup (e : Expr) : e.regroup.flat := by
  induction e with
  | field | call => rfl
  | collect l r _ ihl ihr => exact flat_link ihl ihr
  | combine op l r _ ihl ihr => simp only [regroup, flat, ihl, ihr, Bool.and_self]
  | closure e _ ih | restrict e _ _ ih => exact flat_onLast (fun _ => rfl) (fun _ => rfl) ih

/-- What is grouped as texts are read stays as it is. -/
theorem regroup_of_flat (h : e.flat) : e.regroup = e.bare := by
  induction e with
  | field | call => rfl
  | collect l r _ ihl ihr =>
      simp only [flat, Bool.and_eq_true, Bool.not_eq_true'] at h
      rw [regroup, ihl h.1.1, ihr h.1.2, link_of_single _ (by rw [isChain_bare, h.2])]
      rfl
  | combine op l r _ ihl ihr =>
      simp only [flat, Bool.and_eq_true] at h
      rw [regroup, ihl h.1, ihr h.2]
      rfl
  | closure e _ ih | restrict e _ _ ih =>
      simp only [flat, Bool.and_eq_true, Bool.not_eq_true'] at h
      rw [regroup, ih h.1, onLast_of_single _ (by rw [isChain_bare, h.2])]
      rfl

/-- Exactly what no chain stands in the wrong place of is left as it is. -/
theorem regroup_eq_bare_iff : e.regroup = e.bare ↔ e.flat :=
  ⟨fun h => by rw [← flat_bare, ← h]; exact flat_regroup e, regroup_of_flat⟩

/-! ### Reading a text -/

/-- The lexemes are links that are no chains, with dots between them. -/
inductive Links : List Lexeme → Expr → Prop
  | one {ts : List Lexeme} {e : Expr} (h : Derives .operand ts e) (single : e.isChain = false) :
      Links ts e
  | more {ts us : List Lexeme} {e f : Expr} {dot : Span} (front : Links ts e)
      (h : Derives .operand us f) (single : f.isChain = false) :
      Links (ts ++ ⟨.sign .dot, dot⟩ :: us) (.collect e f (e.span.merge f.span))

namespace Links

theorem derives (h : Links ts e) : Derives .chain ts e := by
  induction h with
  | one h => exact .operand h
  | more _ h _ ih => exact .collect ih h

/-- Two chains with a dot between them are one chain, from the left. -/
theorem exists_link (hl : Links ts l) (hr : Links us r) (dot : Span) :
    ∃ g, Links (ts ++ ⟨.sign .dot, dot⟩ :: us) g ∧ g.bare = link l.bare r.bare := by
  induction hr with
  | @one _ r h single =>
      refine ⟨_, .more hl h single, ?_⟩
      rw [link_of_single _ (by rw [isChain_bare, single])]
      rfl
  | @more _ _ a b _ _ h single ih =>
      obtain ⟨g, front, bare⟩ := ih
      refine ⟨_, by simpa using front.more h single, ?_⟩
      change collect g.bare b.bare .nowhere = collect (link l.bare a.bare) b.bare .nowhere
      rw [bare]

/-- A suffix behind a chain belongs to its last link. -/
theorem exists_onLast (us : List Lexeme) (suffix : Expr → Expr)
    (h : ∀ ⦃ts e⦄, Derives .operand ts e → ∃ g, Derives .operand (ts ++ us) g ∧
      g.isChain = false ∧ g.bare = suffix e.bare)
    (he : Links ts e) : ∃ g, Links (ts ++ us) g ∧ g.bare = onLast suffix e.bare := by
  cases he with
  | one derived single =>
      obtain ⟨g, derived', single', bare⟩ := h derived
      refine ⟨g, .one derived' single', ?_⟩
      rw [onLast_of_single _ (by rw [isChain_bare, single]), bare]
  | @more _ _ a _ _ front derived _ =>
      obtain ⟨g, derived', single', bare⟩ := h derived
      refine ⟨_, by simpa using front.more derived' single', ?_⟩
      exact congrArg (collect a.bare · .nowhere) bare

end Links

/-- The tokens of a text derive the regrouped expression. -/
theorem exists_links (e : Expr) :
    ∃ g, Links (e.tokens.map (⟨·, .nowhere⟩)) g ∧ g.bare = e.regroup := by
  induction e with
  | field n => exact ⟨_, .one (.primary .field) rfl, rfl⟩
  | call n => exact ⟨_, .one (.primary .call) rfl, rfl⟩
  | collect l r _ ihl ihr =>
      obtain ⟨a, left, barel⟩ := ihl
      obtain ⟨b, right, barer⟩ := ihr
      obtain ⟨g, whole, bare⟩ := left.exists_link right .nowhere
      exact ⟨g, by simpa [tokens] using whole, by rw [bare, barel, barer, regroup]⟩
  | combine op l r _ ihl ihr =>
      obtain ⟨a, left, barel⟩ := ihl
      obtain ⟨b, right, barer⟩ := ihr
      have inner := Derives.combine (l := ⟨.sign op.sign, .nowhere⟩) op.ofToken?_sign
        (.chain left.derives) right.derives
      have group : Derives .primary
          (⟨.sign .lparen, .nowhere⟩ :: _ ++ [⟨.sign .rparen, .nowhere⟩]) _ := inner.group
      refine ⟨_, by simpa [tokens] using Links.one (.primary group) rfl, ?_⟩
      rw [bare_withSpan, regroup, ← barel, ← barer]
      rfl
  | closure e _ ih =>
      obtain ⟨a, inner, barea⟩ := ih
      obtain ⟨g, whole, bare⟩ := inner.exists_onLast [⟨.sign .star, .nowhere⟩]
        (closure · .nowhere) fun _ _ h => ⟨_, .closure h, rfl, rfl⟩
      exact ⟨g, by simpa [tokens] using whole, by rw [bare, barea, regroup]⟩
  | restrict e asset _ ih =>
      obtain ⟨a, inner, barea⟩ := ih
      obtain ⟨g, whole, bare⟩ := inner.exists_onLast
        [⟨.sign .lbracket, .nowhere⟩, ⟨.ident asset.name, .nowhere⟩, ⟨.sign .rbracket, .nowhere⟩]
        (restrict · ⟨asset.name, .nowhere⟩ .nowhere)
        fun _ _ h => ⟨_, .restrict h, rfl, rfl⟩
      exact ⟨g, by simpa [tokens] using whole, by rw [bare, barea, regroup]⟩

/-- An expression that is read off a source has a text that is read to its end. What is read has the
same text, and is the same expression, places apart, exactly where no chain stands at the right of a
dot or under a suffix. -/
theorem text_read_back {source : String} {before rest : List Lexeme} {eof : Span}
    (lexed : lexemes source = .ok (before ++ ts)) (h : Reads (read eof ts) e rest) (eof' : Span) :
    ∃ us f, lexemes e.text = .ok us ∧ Reads (read eof' us) f [] ∧ f.bare = e.regroup ∧
      f.text = e.text ∧ (f.bare = e.bare ↔ e.flat) := by
  obtain ⟨consumed, rfl, derived⟩ := takes_read h
  have names : ∀ n ∈ e.names, IsName n := fun n hn => by
    obtain ⟨s, found⟩ := derived.exists_mem hn
    exact isName_of_lexemes lexed (List.mem_append_right _ (List.mem_append_left _ found))
  obtain ⟨us, lexed', tokens⟩ := (spells_text names).exists_lexemes (by rintro d ⟨⟩)
  obtain ⟨g, links, regrouped⟩ := e.exists_links
  have same : SameTokens us (e.tokens.map (⟨·, .nowhere⟩)) := by
    rw [SameTokens, tokens, List.map_map]
    exact (List.map_id _).symm
  obtain ⟨f, derived', bare⟩ := (Derives.chain links.derives).transfer same
  have regrouped : f.bare = e.regroup := bare.trans regrouped
  refine ⟨us, f, lexed', derived'.reads_all eof', regrouped, ?_, ?_⟩
  · calc f.text
      _ = f.bare.text := (text_relocate .erase f).symm
      _ = e.regroup.text := congrArg text regrouped
      _ = e.text := e.text_regroup
  · rw [regrouped, regroup_eq_bare_iff]

/-! ### Texts of two variables -/

namespace Peers

/-- A variable that takes what another one has away from a closure. -/
def source : String := "let peers = (links \\/ up[Lan].down)* - own()"

/-- The lexemes in front of the expression. -/
def before : List Lexeme :=
  [⟨.keyword .binding, ⟨0, 3, 1⟩⟩, ⟨.ident "peers", ⟨4, 9, 1⟩⟩, ⟨.sign .equals, ⟨10, 11, 1⟩⟩]

/-- The lexemes of the expression. -/
def phrase : List Lexeme :=
  [⟨.sign .lparen, ⟨12, 13, 1⟩⟩, ⟨.ident "links", ⟨13, 18, 1⟩⟩, ⟨.sign .union, ⟨19, 21, 1⟩⟩,
    ⟨.ident "up", ⟨22, 24, 1⟩⟩, ⟨.sign .lbracket, ⟨24, 25, 1⟩⟩, ⟨.ident "Lan", ⟨25, 28, 1⟩⟩,
    ⟨.sign .rbracket, ⟨28, 29, 1⟩⟩, ⟨.sign .dot, ⟨29, 30, 1⟩⟩, ⟨.ident "down", ⟨30, 34, 1⟩⟩,
    ⟨.sign .rparen, ⟨34, 35, 1⟩⟩, ⟨.sign .star, ⟨35, 36, 1⟩⟩, ⟨.sign .minus, ⟨37, 38, 1⟩⟩,
    ⟨.ident "own", ⟨39, 42, 1⟩⟩, ⟨.sign .lparen, ⟨42, 43, 1⟩⟩, ⟨.sign .rparen, ⟨43, 44, 1⟩⟩]

/-- The expression. -/
def expr : Expr :=
  .combine .difference
    (.closure
      (.combine .union (.field ⟨"links", ⟨13, 18, 1⟩⟩ ⟨13, 18, 1⟩)
        (.collect
          (.restrict (.field ⟨"up", ⟨22, 24, 1⟩⟩ ⟨22, 24, 1⟩) ⟨"Lan", ⟨25, 28, 1⟩⟩ ⟨22, 29, 1⟩)
          (.field ⟨"down", ⟨30, 34, 1⟩⟩ ⟨30, 34, 1⟩) ⟨22, 34, 1⟩) ⟨12, 35, 1⟩) ⟨12, 36, 1⟩)
    (.call ⟨"own", ⟨39, 42, 1⟩⟩ ⟨39, 44, 1⟩) ⟨12, 44, 1⟩

end Peers

open Peers in
/-- Set operations are read back wherever they stand. -/
theorem text_read_back_peers :
    lexemes source = .ok (before ++ phrase) ∧ Reads (read .nowhere phrase) expr [] ∧
      expr.text = "((links \\/ up[Lan].down)* - own())" ∧
      ∃ us f, lexemes expr.text = .ok us ∧ Reads (read .nowhere us) f [] ∧ f.bare = expr.bare := by
  have lexed : lexemes source = .ok (before ++ phrase) := by decide +kernel
  have reads : Reads (read .nowhere phrase) expr [] := by decide +kernel
  obtain ⟨us, f, lexed', reads', -, -, same⟩ := text_read_back lexed reads .nowhere
  exact ⟨lexed, reads, by decide +kernel, us, f, lexed', reads', same.mpr rfl⟩

namespace SuffixedChain

/-- A variable that is the closure of a chain. -/
def source : String := "category C \x7b asset A \x7b let x = (a.b)* \x7d \x7d"

/-- The lexemes in front of the expression. -/
def before : List Lexeme :=
  [⟨.keyword .category, ⟨0, 8, 1⟩⟩, ⟨.ident "C", ⟨9, 10, 1⟩⟩, ⟨.sign .lbrace, ⟨11, 12, 1⟩⟩,
    ⟨.keyword .asset, ⟨13, 18, 1⟩⟩, ⟨.ident "A", ⟨19, 20, 1⟩⟩, ⟨.sign .lbrace, ⟨21, 22, 1⟩⟩,
    ⟨.keyword .binding, ⟨23, 26, 1⟩⟩, ⟨.ident "x", ⟨27, 28, 1⟩⟩, ⟨.sign .equals, ⟨29, 30, 1⟩⟩]

/-- The lexemes from the expression on. -/
def onward : List Lexeme :=
  [⟨.sign .lparen, ⟨31, 32, 1⟩⟩, ⟨.ident "a", ⟨32, 33, 1⟩⟩, ⟨.sign .dot, ⟨33, 34, 1⟩⟩,
    ⟨.ident "b", ⟨34, 35, 1⟩⟩, ⟨.sign .rparen, ⟨35, 36, 1⟩⟩, ⟨.sign .star, ⟨36, 37, 1⟩⟩,
    ⟨.sign .rbrace, ⟨38, 39, 1⟩⟩, ⟨.sign .rbrace, ⟨40, 41, 1⟩⟩]

/-- The closure of the chain. -/
def expr : Expr :=
  .closure
    (.collect (.field ⟨"a", ⟨32, 33, 1⟩⟩ ⟨32, 33, 1⟩) (.field ⟨"b", ⟨34, 35, 1⟩⟩ ⟨34, 35, 1⟩)
      ⟨31, 36, 1⟩) ⟨31, 37, 1⟩

/-- The chain with a closure at its end. -/
def back : Expr :=
  .collect (.field ⟨"a", ⟨0, 1, 1⟩⟩ ⟨0, 1, 1⟩)
    (.closure (.field ⟨"b", ⟨2, 3, 1⟩⟩ ⟨2, 3, 1⟩) ⟨2, 4, 1⟩) ⟨0, 4, 1⟩

end SuffixedChain

open SuffixedChain in
/-- The closure of a chain is written without parentheses and comes back as a chain. -/
theorem text_suffixedChain :
    lexemes source = .ok (before ++ onward) ∧ Reads (read .nowhere onward) expr (onward.drop 6) ∧
      expr.text = "a.b*" ∧
      (∃ us, lexemes expr.text = .ok us ∧ Reads (read .nowhere us) back []) ∧
      back.bare ≠ expr.bare := by
  refine ⟨by decide +kernel, by decide +kernel, by decide +kernel, ?_, by decide +kernel⟩
  exact ⟨[⟨.ident "a", ⟨0, 1, 1⟩⟩, ⟨.sign .dot, ⟨1, 2, 1⟩⟩, ⟨.ident "b", ⟨2, 3, 1⟩⟩,
    ⟨.sign .star, ⟨3, 4, 1⟩⟩], by decide +kernel, by decide +kernel⟩

end Expr

end MetaAttack
