import MetaAttack.Spec.Ident

/-!
# Time to compromise

The time that an attack step takes is an arithmetic expression over numbers and probability
distributions.
-/

namespace MetaAttack

/-- An arithmetic operator. -/
inductive TtcOp
  | add
  | sub
  | mul
  | div
  | pow
deriving DecidableEq, Repr

namespace TtcOp

def text : TtcOp → String
  | add => "+"
  | sub => "-"
  | mul => "*"
  | div => "/"
  | pow => "^"

/-- Whether the operator takes times only and no bare values. -/
def timesOnly : TtcOp → Bool
  | sub | div | pow => true
  | add | mul => false

end TtcOp

/-- A time-to-compromise expression. -/
inductive Ttc
  | number (value : Float) (span : Span)
  | distribution (name : Ident) (params : List Float) (span : Span)
  | binary (op : TtcOp) (lhs rhs : Ttc) (span : Span)

namespace Ttc

def span : Ttc → Span
  | number _ s | distribution _ _ s | binary _ _ _ s => s

/-- The same expression with the span `s` at its root. -/
def withSpan (s : Span) : Ttc → Ttc
  | number v _ => number v s
  | distribution n ps _ => distribution n ps s
  | binary op l r _ => binary op l r s

/-- Both operands under one operator, spanning both texts. -/
def combine (op : TtcOp) (l r : Ttc) : Ttc := binary op l r (l.span.merge r.span)

/-- The name of the distribution that makes up the whole expression. -/
def distributionName? : Ttc → Option String
  | distribution n _ _ => some n.name
  | number _ _ | binary _ _ _ _ => none

@[simp] theorem span_withSpan (t : Ttc) (s : Span) : (t.withSpan s).span = s := by
  cases t <;> rfl

end Ttc

end MetaAttack
