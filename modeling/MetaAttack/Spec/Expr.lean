import MetaAttack.Spec.Ident

/-!
# Expressions over assets

An expression walks from an asset along fields to other assets; at the end of a chain a name may
also mean an attack step. Every node carries the span of its text.
-/

namespace MetaAttack

/-- An operator on two sets of assets. -/
inductive SetOp
  | union
  | intersection
  | difference
deriving DecidableEq, Repr

/-- How an operator is written. -/
def SetOp.text : SetOp → String
  | union => "\\/"
  | intersection => "/\\"
  | difference => "-"

/-- An expression. -/
inductive Expr
  /-- A bare name: a field, or an attack step at the end of a chain. -/
  | field (name : Ident) (span : Span)
  /-- `name()`, the value of a variable. -/
  | call (name : Ident) (span : Span)
  /-- `lhs.rhs`, the right side taken from what the left side yields. -/
  | collect (lhs rhs : Expr) (span : Span)
  | combine (op : SetOp) (lhs rhs : Expr) (span : Span)
  /-- `inner*`, any number of steps along `inner`. -/
  | closure (inner : Expr) (span : Span)
  /-- `inner[asset]`, only the assets of one type. -/
  | restrict (inner : Expr) (asset : Ident) (span : Span)
deriving DecidableEq, Repr

namespace Expr

def span : Expr → Span
  | field _ s | call _ s | collect _ _ s | combine _ _ _ s | closure _ s | restrict _ _ s => s

/-- The same expression with the span `s` at its root. -/
def withSpan (s : Span) : Expr → Expr
  | field n _ => field n s
  | call n _ => call n s
  | collect l r _ => collect l r s
  | combine op l r _ => combine op l r s
  | closure e _ => closure e s
  | restrict e a _ => restrict e a s

/-- An expression in one line, with parentheses around every set operation and nowhere else. -/
def text : Expr → String
  | field n _ => n.name
  | call n _ => n.name ++ "()"
  | collect l r _ => l.text ++ "." ++ r.text
  | combine op l r _ => "(" ++ l.text ++ " " ++ op.text ++ " " ++ r.text ++ ")"
  | closure e _ => e.text ++ "*"
  | restrict e a _ => e.text ++ "[" ++ a.name ++ "]"

@[simp] theorem span_withSpan (e : Expr) (s : Span) : (e.withSpan s).span = s := by
  cases e <;> rfl

@[simp] theorem text_withSpan (e : Expr) (s : Span) : (e.withSpan s).text = e.text := by
  cases e <;> simp [withSpan, text]

end Expr

end MetaAttack
