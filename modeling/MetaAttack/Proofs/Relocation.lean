import MetaAttack.Spec.Declaration.Parser

/-!
# Moving spans

What is read off a source carries spans. Relocating it applies a function to every one of them, down
to the last name, and leaves the rest as it is; relocating by the identity changes nothing. Shifting
is the relocation for a text that gets more in front of it, and goes along with merging.
-/

namespace MetaAttack

/-- The span of the same stretch where `bytes` bytes with `lines` line ends come in front. -/
def Span.shift (bytes lines : Nat) (s : Span) : Span :=
  ⟨s.start + bytes, s.stop + bytes, s.line + lines⟩

/-- Text in front of two stretches moves the stretch from the one to the other alike. -/
theorem Span.shift_merge (bytes lines : Nat) (a b : Span) :
    (a.merge b).shift bytes lines = (a.shift bytes lines).merge (b.shift bytes lines) := by
  grind [shift, merge]

section

variable (f : Span → Span)

/-! ### Lexemes and errors -/

/-- What was lexed is the same, in another place. -/
def Lexeme.relocate (l : Lexeme) : Lexeme := ⟨l.token, f l.span⟩

def InvalidCharacter.relocate (e : InvalidCharacter) : InvalidCharacter := ⟨f e.span⟩

/-- The message of an error stays, also the token that it names. -/
def ParseError.relocate : ParseError → ParseError
  | unexpectedToken expected found s => unexpectedToken expected found (f s)
  | unexpectedEnd expected s => unexpectedEnd expected (f s)
  | invalidToken s => invalidToken (f s)
  | expectedIdent found s => expectedIdent found (f s)
  | expectedString found s => expectedString found (f s)
  | invalidNumber text s => invalidNumber text (f s)
  | invalidMultiplicity found s => invalidMultiplicity found (f s)
  | invalidClassification found s => invalidClassification found (f s)

/-! ### Expressions and times -/

/-- A name is the smallest thing that has a place of its own. -/
def Ident.relocate (n : Ident) : Ident := ⟨n.name, f n.span⟩

/-- Every subexpression and every name in it is moved. -/
def Expr.relocate : Expr → Expr
  | field n s => field (n.relocate f) (f s)
  | call n s => call (n.relocate f) (f s)
  | collect l r s => collect l.relocate r.relocate (f s)
  | combine op l r s => combine op l.relocate r.relocate (f s)
  | closure e s => closure e.relocate (f s)
  | restrict e a s => restrict e.relocate (a.relocate f) (f s)

/-- Parameters are numbers without places, so they stay. -/
def Ttc.relocate : Ttc → Ttc
  | number v s => number v (f s)
  | distribution n ps s => distribution (n.relocate f) ps (f s)
  | binary op l r s => binary op l.relocate r.relocate (f s)

/-! ### Steps -/

/-- The text of a remark has no place of its own, its key has one. -/
def Remark.relocate (r : Remark) : Remark where
  key := r.key.relocate f
  value := r.value
  span := f r.span

/-- The letters are kept as flags, which have no places. -/
def Classification.relocate (c : Classification) : Classification := ⟨c.flags, f c.span⟩

def Requires.relocate (q : Requires) : Requires := ⟨q.exprs.map (Expr.relocate f), f q.span⟩

def Reaches.relocate (q : Reaches) : Reaches where
  appends := q.appends
  exprs := q.exprs.map (Expr.relocate f)
  span := f q.span

/-- Moves all parts of a step, those that may be missing included. -/
def AttackStep.relocate (s : AttackStep) : AttackStep where
  kind := s.kind
  name := s.name.relocate f
  tags := s.tags.map (Ident.relocate f)
  cia := s.cia.map (Classification.relocate f)
  ttc := s.ttc.map (Ttc.relocate f)
  remarks := s.remarks.map (Remark.relocate f)
  requires := s.requires.map (Requires.relocate f)
  reaches := s.reaches.map (Reaches.relocate f)
  span := f s.span

/-! ### Declarations -/

def Variable.relocate (v : Variable) : Variable where
  name := v.name.relocate f
  expr := v.expr.relocate f
  span := f v.span

/-- Steps and variables are members of an asset alike. -/
def Member.relocate : Member → Member
  | step s => step (s.relocate f)
  | binding v => binding (v.relocate f)

/-- The members of an asset are kept apart by kind, and so they are moved. -/
def Asset.relocate (a : Asset) : Asset where
  isAbstract := a.isAbstract
  name := a.name.relocate f
  parent := a.parent.map (Ident.relocate f)
  remarks := a.remarks.map (Remark.relocate f)
  steps := a.steps.map (AttackStep.relocate f)
  bindings := a.bindings.map (Variable.relocate f)
  span := f a.span

def Category.relocate (c : Category) : Category where
  name := c.name.relocate f
  remarks := c.remarks.map (Remark.relocate f)
  assets := c.assets.map (Asset.relocate f)
  span := f c.span

/-- Both ends are moved; what bounds them has no place. -/
def Association.relocate (a : Association) : Association where
  leftAsset := a.leftAsset.relocate f
  leftField := a.leftField.relocate f
  leftMult := a.leftMult
  name := a.name.relocate f
  rightMult := a.rightMult
  rightField := a.rightField.relocate f
  rightAsset := a.rightAsset.relocate f
  remarks := a.remarks.map (Remark.relocate f)
  span := f a.span

def Define.relocate (d : Define) : Define where
  key := d.key.relocate f
  value := d.value
  span := f d.span

def Include.relocate (i : Include) : Include := ⟨i.path, f i.span⟩

/-- A declaration of any of the three kinds. -/
def Declaration.relocate : Declaration → Declaration
  | define d => define (d.relocate f)
  | category c => category (c.relocate f)
  | associations as => associations (as.map (Association.relocate f))

/-- An include keeps its path. -/
def Item.relocate : Item → Item
  | declaration d => declaration (d.relocate f)
  | inclusion i => inclusion (i.relocate f)

/-- Moves everything that was read from a source. -/
def Spec.relocate (s : Spec) : Spec := ⟨s.items.map (Item.relocate f)⟩

/-- The result of reading with the spans moved, be it a value or an error. -/
def relocateResult {α : Type} (move : (Span → Span) → α → α) :
    Except ParseError α → Except ParseError α
  | .ok a => .ok (move f a)
  | .error e => .error (e.relocate f)

/-! ### Roots -/

/-- Where a moved expression stands is where the expression stood, moved. -/
@[simp] theorem Expr.span_relocate (e : Expr) : (e.relocate f).span = f e.span := by
  cases e <;> rfl

/-- Parentheses only widen an expression, so moving what is inside and what they cover is enough. -/
theorem Expr.relocate_withSpan (e : Expr) (s : Span) :
    (e.withSpan s).relocate f = (e.relocate f).withSpan (f s) := by
  cases e <;> rfl

/-- A moved time stands where the time stood, moved. -/
@[simp] theorem Ttc.span_relocate (t : Ttc) : (t.relocate f).span = f t.span := by
  cases t <;> rfl

theorem Ttc.relocate_withSpan (t : Ttc) (s : Span) :
    (t.withSpan s).relocate f = (t.relocate f).withSpan (f s) := by
  cases t <;> rfl

end

/-! ### The identity -/

/-- Errors that are not moved stay the same; from here up to whole items. -/
@[simp] theorem ParseError.relocate_id : ParseError.relocate id = id := by
  funext e
  cases e <;> rfl

@[simp] theorem Ident.relocate_id : Ident.relocate id = id := rfl

/-- By structural induction: no subexpression changes. -/
@[simp] theorem Expr.relocate_id : Expr.relocate id = id := by
  funext e
  induction e with
  | field | call => rfl
  | collect _ _ _ ihl ihr | combine _ _ _ _ ihl ihr => simp [relocate, ihl, ihr]
  | closure _ _ ih | restrict _ _ _ ih => simp [relocate, ih]

@[simp] theorem Ttc.relocate_id : Ttc.relocate id = id := by
  funext t
  induction t with
  | number | distribution => rfl
  | binary _ _ _ _ ihl ihr => simp [relocate, ihl, ihr]

@[simp] theorem Remark.relocate_id : Remark.relocate id = id := rfl

@[simp] theorem Classification.relocate_id : Classification.relocate id = id := rfl

@[simp] theorem Requires.relocate_id : Requires.relocate id = id := by
  funext q
  simp [relocate]

@[simp] theorem Reaches.relocate_id : Reaches.relocate id = id := by
  funext q
  simp [relocate]

@[simp] theorem AttackStep.relocate_id : AttackStep.relocate id = id := by
  funext s
  simp [relocate]

@[simp] theorem Variable.relocate_id : Variable.relocate id = id := by
  funext v
  simp [relocate]

@[simp] theorem Asset.relocate_id : Asset.relocate id = id := by
  funext a
  simp [relocate]

@[simp] theorem Category.relocate_id : Category.relocate id = id := by
  funext c
  simp [relocate]

@[simp] theorem Association.relocate_id : Association.relocate id = id := by
  funext a
  simp [relocate]

@[simp] theorem Declaration.relocate_id : Declaration.relocate id = id := by
  funext d
  cases d with
  | define => rfl
  | category | associations => simp [relocate]

/-- A specification that is read where it stands needs no moving. -/
@[simp] theorem Item.relocate_id : Item.relocate id = id := by
  funext i
  cases i with
  | declaration => simp [relocate]
  | inclusion => rfl

/-- What does not change a value does not change a result, error or not. -/
theorem relocateResult_id {α : Type} (move : (Span → Span) → α → α) (h : move id = id)
    (x : Except ParseError α) : relocateResult id move x = x := by
  cases x <;> simp [relocateResult, h]

end MetaAttack
