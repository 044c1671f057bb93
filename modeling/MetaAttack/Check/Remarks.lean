import MetaAttack.Diagnostic.SemanticError
import MetaAttack.Registry.Basic

/-!
# Remarks

No declaration has two remarks under one key.
-/

namespace MetaAttack

/-- The remarks whose key one of `earlier` or one before them has. -/
def repeatedRemarks (earlier : List Remark) : List Remark → List SemanticError
  | [] => []
  | r :: rs =>
      let rest := repeatedRemarks (earlier ++ [r]) rs
      match earlier.find? fun e => e.key.name = r.key.name with
      | some prior => .duplicateRemark r.key.name prior.span.line r.span :: rest
      | none => rest

def Registry.remarkErrors (R : Registry) : List SemanticError :=
  R.remarks.flatMap fun b => repeatedRemarks [] b.entries

end MetaAttack
