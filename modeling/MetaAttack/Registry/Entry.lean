import MetaAttack.Registry.Table
import MetaAttack.Spec.Declaration

/-!
# Registry entries

What analysis keeps of each declaration, with the results that it adds: the type of a variable, and
the assets and attack steps that the clauses of a step lead to.
-/

namespace MetaAttack

/-- A define. -/
structure DefineEntry where
  key : String
  value : String
  span : Span
deriving DecidableEq, Repr

instance : Keyed DefineEntry := ⟨DefineEntry.key⟩

/-- A category with the names of its assets. All declarations of one name make one category; the
span is that of the first. -/
structure CategoryEntry where
  name : String
  assets : List String
  span : Span
deriving DecidableEq, Repr

instance : Keyed CategoryEntry := ⟨CategoryEntry.name⟩

/-- One end of an association, as a field of the asset at the other end. -/
structure FieldEntry where
  name : String
  target : String
  multiplicity : Multiplicity
  association : String
  span : Span
deriving DecidableEq, Repr

instance : Keyed FieldEntry := ⟨FieldEntry.name⟩

/-- A variable; `target` is the type of its expression once that is known. -/
structure VariableEntry where
  name : String
  expr : Expr
  span : Span
  target : Option String
deriving DecidableEq, Repr

instance : Keyed VariableEntry := ⟨VariableEntry.name⟩

/-- An attack step, named by the asset that it is looked up on. -/
structure StepRef where
  asset : String
  step : String
deriving DecidableEq, Repr

/-- How a step is shown. -/
def StepRef.text (r : StepRef) : String := r.asset ++ "." ++ r.step

/-- An attack step; `required` and `reached` are what its clauses resolve to. -/
structure StepEntry where
  name : String
  kind : StepKind
  tags : List String
  cia : Option Classification
  ttc : Option Ttc
  requires : Option Requires
  reaches : Option Reaches
  span : Span
  required : List String
  reached : List StepRef

instance : Keyed StepEntry := ⟨StepEntry.name⟩

namespace StepEntry

/-- Whether the step adds to an inherited step of its name. -/
def appends (s : StepEntry) : Bool := s.reaches.any Reaches.appends

/-- The entry of a declared step, with nothing resolved yet. -/
def ofStep (s : AttackStep) : StepEntry where
  name := s.name.name
  kind := s.kind
  tags := s.tags.map Ident.name
  cia := s.cia
  ttc := s.ttc
  requires := s.requires
  reaches := s.reaches
  span := s.span
  required := []
  reached := []

end StepEntry

/-- The entry of a declared variable, with no type yet. -/
def VariableEntry.ofVariable (v : Variable) : VariableEntry :=
  ⟨v.name.name, v.expr, v.span, none⟩

/-- An asset with its members. -/
structure AssetEntry where
  name : String
  category : String
  isAbstract : Bool
  parent : Option Ident
  span : Span
  fields : Table FieldEntry
  bindings : Table VariableEntry
  steps : Table StepEntry

instance : Keyed AssetEntry := ⟨AssetEntry.name⟩

namespace AssetEntry

/-- An asset that has no members and no parent. -/
def bare (name category : String) (span : Span) : AssetEntry :=
  ⟨name, category, false, none, span, .empty, .empty, .empty⟩

/-- A name that is taken keeps its field. -/
def addField (a : AssetEntry) (f : FieldEntry) : AssetEntry :=
  { a with fields := a.fields.insert f }

def addVariable (a : AssetEntry) (v : VariableEntry) : AssetEntry :=
  { a with bindings := a.bindings.insert v }

def addStep (a : AssetEntry) (s : StepEntry) : AssetEntry := { a with steps := a.steps.insert s }

end AssetEntry

/-- An association between two assets. -/
structure AssociationEntry where
  name : String
  left : Ident
  leftField : String
  leftMult : Multiplicity
  right : Ident
  rightField : String
  rightMult : Multiplicity
  span : Span
deriving DecidableEq, Repr

/-- The entry of a declared association. -/
def AssociationEntry.ofAssociation (a : Association) : AssociationEntry where
  name := a.name.name
  left := a.leftAsset
  leftField := a.leftField.name
  leftMult := a.leftMult
  right := a.rightAsset
  rightField := a.rightField.name
  rightMult := a.rightMult
  span := a.span

/-- The declaration that remarks belong to. -/
inductive RemarkScope
  | category (name : String)
  | asset (name : String)
  | step (step : StepRef)
  | association (name : String)
deriving DecidableEq, Repr

def RemarkScope.text : RemarkScope → String
  | category n => "category " ++ n
  | asset n => "asset " ++ n
  | step r => "attack step " ++ r.text
  | association n => "association " ++ n

/-- The remarks of one declaration, in source order. -/
structure RemarkBlock where
  scope : RemarkScope
  entries : List Remark
deriving DecidableEq, Repr

/-- The first remark under a key. -/
def RemarkBlock.find? (b : RemarkBlock) (key : String) : Option Remark :=
  b.entries.find? fun r => r.key.name = key

end MetaAttack
