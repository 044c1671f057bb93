import MetaAttack.Span

/-!
# Names with a place
-/

namespace MetaAttack

/-- A name as it occurs at one place of a source. -/
structure Ident where
  name : String
  span : Span
deriving DecidableEq, Repr, Inhabited

end MetaAttack
