import MetaAttack.CommandLine.Scaffold
import MetaAttack.Proofs.Concatenation
import MetaAttack.Proofs.Independence
import MetaAttack.Proofs.Literals

/-!
# The example specification

The example of a new project differs from that of another in its first line only, where the
identifier stands as a literal, with its quotes and backslashes as they are in the name. If they are
escaped in the name, the line defines the identifier that they stand for. What follows is one fixed
text. The example as a whole follows all rules, and nothing in it is doubtful.
-/

namespace MetaAttack

deriving instance DecidableEq for Ttc
deriving instance DecidableEq for AttackStep
deriving instance DecidableEq for Asset
deriving instance DecidableEq for Category
deriving instance DecidableEq for Declaration
deriving instance DecidableEq for Item
deriving instance DecidableEq for Spec

/-! ### Analyses without errors -/

/-- Distinct defines are all entered. -/
theorem defines_ofDeclared {es : List Entity} (w : WellFormed es) :
    (Analysis.ofDeclared (.of es)).registry.defines.entries = (defines es).map .ofDefine := by
  have kept : (Analysis.ofDeclared (.of es)).registry.defines =
      (Declared.of es).registry.withFields.1.defines := rfl
  rw [kept, w.fields.withFields_fst w.names]
  exact w.names.defines_entries

/-- Where no asset is abstract and no step is classified, nothing is doubtful. -/
theorem warnings_ofDeclared_eq_nil {es : List Entity} (w : WellFormed es)
    (concrete : ∀ x ∈ assets es, x.2.isAbstract = false)
    (unclassified : ∀ x ∈ assets es, ∀ s ∈ x.2.steps, s.cia = none) :
    (Analysis.ofDeclared (.of es)).warnings = [] := by
  have entries : ∀ a ∈ (Declared.of es).registry.withFields.1.assets.entries,
      ∃ x ∈ assets es, a = (AssetEntry.ofAsset x.1 x.2).widen (fieldsOf es) := by
    intro a ha
    rw [w.fields.withFields_fst w.names] at ha
    obtain ⟨b, hb, rfl⟩ := List.mem_map.mp ha
    rw [w.names.assets_entries] at hb
    obtain ⟨x, hx, rfl⟩ := List.mem_map.mp hb
    exact ⟨x, hx, rfl⟩
  refine List.append_eq_nil_iff.mpr ⟨?_, ?_⟩
  · refine List.map_eq_nil_iff.mpr (List.filter_eq_nil_iff.mpr fun a ha => ?_)
    obtain ⟨x, hx, rfl⟩ := entries a ha
    have plain : ((AssetEntry.ofAsset x.1 x.2).widen (fieldsOf es)).isAbstract = false :=
      concrete x hx
    rw [plain, Bool.false_and]
    exact Bool.false_ne_true
  · refine List.flatMap_eq_nil_iff.mpr fun a ha => List.flatMap_eq_nil_iff.mpr fun s hs => ?_
    obtain ⟨x, hx, rfl⟩ := entries a ha
    have steps : ((AssetEntry.ofAsset x.1 x.2).widen (fieldsOf es)).steps.entries =
        x.2.steps.map .ofStep := AssetEntry.steps_ofAsset (c := x.1) (w.names.members x hx)
    rw [steps] at hs
    obtain ⟨step, hstep, rfl⟩ := List.mem_map.mp hs
    have none : (StepEntry.ofStep step).cia = none := unclassified x hx step hstep
    rw [StepEntry.classificationWarnings, none]

/-! ### Lower case and literals -/

namespace Text

/-- The character has no meaning of its own in a literal. -/
def Inert (c : Char) : Prop := c ≠ '"' ∧ c ≠ '\\' ∧ c ≠ '\n'

instance (c : Char) : Decidable (Inert c) := inferInstanceAs (Decidable (_ ∧ _))

/-- From the small letters on, no character means anything to the lexer inside a string. -/
theorem inert_ofNat {n : Nat} (letter : 'a'.toNat ≤ n) : Inert (Char.ofNat n) := by
  by_cases valid : n.isValidChar
  · have code : (Char.ofNat n).toNat = n := by
      rw [Char.ofNat, dif_pos valid]
      rfl
    refine ⟨?_, ?_, ?_⟩ <;>
    · intro same
      rw [same] at code
      subst code
      exact absurd letter (by decide)
  · rw [Char.ofNat, dif_neg valid]
    decide

set_option maxRecDepth 2000 in
theorem le_lower_caseRuns : ∀ r ∈ caseRuns, 'a'.toNat ≤ r.lower := by decide

/-- The lower case of a character starts with itself or a letter, and goes on with inert ones. -/
theorem exists_lowerOf (c : Char) :
    ∃ d ds, lowerOf c = d :: ds ∧ (d = c ∨ Inert d) ∧ ∀ e ∈ ds, Inert e := by
  rw [lowerOf]
  split
  · exact ⟨_, _, rfl, .inr (by decide), List.forall_mem_singleton.mpr (by decide)⟩
  · refine ⟨_, _, rfl, ?_, List.forall_mem_nil _⟩
    cases found : caseRuns.findSome? (·.lower? c.toNat) with
    | none => exact .inl rfl
    | some n =>
        obtain ⟨r, hr, lower⟩ := List.exists_of_findSome?_eq_some found
        have letter := le_lower_caseRuns r hr
        rw [CaseRun.lower?] at lower
        split at lower
        · rw [Option.some.injEq] at lower
          exact .inr (inert_ofNat (by omega))
        · cases lower

/-- Lowercasing keeps a character or puts inert ones in its place. It may need those before it, as
for a final sigma. -/
theorem exists_lowerFrom_cons (before : List Char) (c : Char) (r : List Char) :
    ∃ d ds, lowerFrom before (c :: r) = d :: ds ++ lowerFrom (c :: before) r ∧
      (d = c ∨ Inert d) ∧ ∀ e ∈ ds, Inert e := by
  rw [lowerFrom]
  split
  · split
    · exact ⟨_, _, rfl, .inr (by decide), List.forall_mem_nil _⟩
    · exact ⟨_, _, rfl, .inr (by decide), List.forall_mem_nil _⟩
  · obtain ⟨d, ds, lower, first, rest⟩ := exists_lowerOf c
    exact ⟨d, ds, by rw [lower], first, rest⟩

/-- A backslash is kept, so what it escapes is escaped still. -/
theorem lowerFrom_backslash (before r : List Char) :
    lowerFrom before ('\\' :: r) = '\\' :: lowerFrom ('\\' :: before) r := by
  have lower : lowerOf '\\' = ['\\'] := by decide
  rw [lowerFrom, if_neg (by decide), lower]
  rfl

end Text

namespace Scaffold

open Literal Text

variable {s : Scaffold}

/-- What becomes of a character of the name in lower case. -/
def identifierChar (c : Char) : Char := if c = '-' || c = ' ' then '_' else c

theorem inert_identifierChar {c : Char} (h : Inert c) : Inert (identifierChar c) := by
  rw [identifierChar]
  split
  · decide
  · exact h

/-- Character by character, once the name is in lower case. -/
theorem toList_identifier (s : Scaffold) :
    s.identifier.toList = (lowerFrom [] s.name.toList).map identifierChar := by
  rw [identifier, String.toList_map, lowercase, String.toList_ofList]
  rfl

/-- Every character of the name gives itself or an inert one, with inert ones behind it. -/
theorem exists_identifier_cons (before : List Char) (c : Char) (r : List Char) :
    ∃ d ds, (lowerFrom before (c :: r)).map identifierChar =
        d :: (ds ++ (lowerFrom (c :: before) r).map identifierChar) ∧
      (d = c ∨ Inert d) ∧ ∀ e ∈ ds, Inert e := by
  obtain ⟨d, ds, lower, first, rest⟩ := exists_lowerFrom_cons before c r
  refine ⟨identifierChar d, ds.map identifierChar, ?_, ?_, ?_⟩
  · rw [lower, List.map_append, List.map_cons, List.cons_append]
  · rcases first with rfl | inert
    · rw [identifierChar]
      split
      · exact .inr (by decide)
      · exact .inl rfl
    · exact .inr (inert_identifierChar inert)
  · intro e he
    obtain ⟨e', he', rfl⟩ := List.mem_map.mp he
    exact inert_identifierChar (rest e' he')

/-- Inert characters change nothing about what is escaped. -/
theorem escaped_append_of_inert {cs ds : List Char} (inert : ∀ c ∈ cs, Inert c) (h : Escaped ds) :
    Escaped (cs ++ ds) :=
  (escaped_of_plain (fun hq => (inert _ hq).1 rfl) fun hb => (inert _ hb).2.1 rfl).append h

/-- Units of the name are units of the identifier. -/
theorem escaped_map_lowerFrom {cs : List Char} (h : Escaped cs) (before : List Char) :
    Escaped ((lowerFrom before cs).map identifierChar) := by
  induction h generalizing before with
  | nil => exact .nil
  | @plain c cs noQuote noBackslash more ih =>
      obtain ⟨d, ds, text, first, rest⟩ := exists_identifier_cons before c cs
      rw [text]
      rcases first with rfl | inert
      · exact .plain noQuote noBackslash (escaped_append_of_inert rest (ih _))
      · exact .plain inert.1 inert.2.1 (escaped_append_of_inert rest (ih _))
  | @pair c cs noNewline more ih =>
      obtain ⟨d, ds, text, first, rest⟩ := exists_identifier_cons ('\\' :: before) c cs
      rw [lowerFrom_backslash, List.map_cons, text]
      refine .pair ?_ (escaped_append_of_inert rest (ih _))
      rcases first with rfl | inert
      · exact noNewline
      · exact inert.2.2

/-- An escaped name has an escaped identifier. -/
theorem escaped_identifier (h : Escaped s.name.toList) : Escaped s.identifier.toList :=
  toList_identifier s ▸ escaped_map_lowerFrom h []

/-! ### The first line -/

/-- The line that defines the identifier. -/
def idLine (s : Scaffold) : String := "#id: \"org.example." ++ s.identifier ++ "\""

/-- What the identifier of the specification comes to be. -/
def specId (s : Scaffold) : String := "org.example." ++ .ofList (resolve s.identifier.toList)

/-- The first line, spelled out. -/
theorem toList_idLine (s : Scaffold) : s.idLine.toList =
    '#' :: 'i' :: 'd' :: ':' :: ' ' :: '"' ::
      ("org.example.".toList ++ s.identifier.toList ++ ['"']) := by
  have front : "#id: \"org.example.".toList =
      ['#', 'i', 'd', ':', ' ', '"'] ++ "org.example.".toList := by decide
  have back : "\"".toList = ['"'] := rfl
  unfold idLine
  rw [String.toList_append, String.toList_append, front, back]
  simp only [List.cons_append, List.nil_append]

/-- Units in the name make the first line a definition. -/
theorem lexemes_idLine (units : Escaped s.identifier.toList) :
    lexemes s.idLine = .ok [⟨.sign .hash, ⟨0, 1, 1⟩⟩, ⟨.ident "id", ⟨1, 3, 1⟩⟩,
      ⟨.sign .colon, ⟨3, 4, 1⟩⟩, ⟨.string s.specId, ⟨5, s.idLine.utf8ByteSize, 1⟩⟩] := by
  have plain : Escaped "org.example.".toList := escaped_of_plain (by decide) (by decide)
  have whole : Escaped ("org.example.".toList ++ s.identifier.toList) := plain.append units
  have value : s.specId = .ofList (resolve ("org.example.".toList ++ s.identifier.toList)) := by
    have same : resolve "org.example.".toList = "org.example.".toList := by decide
    rw [plain.resolve_append, same, String.ofList_append, String.ofList_toList]
    rfl
  -- in front of the literal, pieces are cut by what is fixed, whatever the name is
  have cut : pieces s.idLine.toList =
      [⟨.token (.sign .hash), ['#']⟩, ⟨.token (.ident "id"), ['i', 'd']⟩,
        ⟨.token (.sign .colon), [':']⟩, ⟨.gap, [' ']⟩,
        ⟨.token (.string s.specId),
          '"' :: ("org.example.".toList ++ s.identifier.toList ++ ['"'])⟩] := by
    rw [toList_idLine]
    generalize "org.example.".toList ++ s.identifier.toList = inner at whole value ⊢
    have sign : ∀ ds, Piece.first '#' ('i' :: ds) = (⟨.token (.sign .hash), ['#']⟩, 'i' :: ds) :=
      fun _ => rfl
    have word : ∀ ds, Piece.first 'i' ('d' :: ':' :: ds) =
        (⟨.token (.ident "id"), ['i', 'd']⟩, ':' :: ds) := fun _ => rfl
    have colon : ∀ ds, Piece.first ':' (' ' :: ds) = (⟨.token (.sign .colon), [':']⟩, ' ' :: ds) :=
      fun _ => rfl
    have blank : ∀ ds, Piece.first ' ' ds = (⟨.gap, [' ']⟩, ds) := fun _ => rfl
    rw [pieces, sign, pieces, word, pieces, colon, pieces, blank, pieces, whole.first, pieces,
      ← value]
  have size : s.idLine.utf8ByteSize =
      5 + byteSize ('"' :: ("org.example.".toList ++ s.identifier.toList ++ ['"'])) := by
    rw [← byteSize_toList, toList_idLine]
    generalize '"' :: ("org.example.".toList ++ s.identifier.toList ++ ['"']) = cs
    exact byteSize_append ['#', 'i', 'd', ':', ' '] cs
  rw [lexemes, scan, cut, size]
  generalize '"' :: ("org.example.".toList ++ s.identifier.toList ++ ['"']) = cs
  rfl

/-- What the first line declares. -/
def idDefine (s : Scaffold) : Define :=
  ⟨⟨"id", ⟨1, 3, 1⟩⟩, s.specId, .merge ⟨0, 1, 1⟩ ⟨5, s.idLine.utf8ByteSize, 1⟩⟩

/-- The first line is read as this define. This is the only line that depends on the name. -/
theorem ofSource_idLine (units : Escaped s.identifier.toList) :
    Spec.ofSource s.idLine = .ok ⟨[.declaration (.define s.idDefine)]⟩ := by
  have derived : Many (Item.Derives .separate) ([⟨.sign .hash, ⟨0, 1, 1⟩⟩,
      ⟨.ident "id", ⟨1, 3, 1⟩⟩, ⟨.sign .colon, ⟨3, 4, 1⟩⟩,
      ⟨.string s.specId, ⟨5, s.idLine.utf8ByteSize, 1⟩⟩] ++ [])
      [.declaration (.define s.idDefine)] := .cons .define .nil
  exact Spec.ofSource_of_derives (lexemes_idLine units) derived

/-! ### The text behind the first line -/

/-- The lines of the example behind the first. -/
def fixedLines : List String := (sourceLines ⟨"", .empty⟩).tail

/-- The text of the lines that are the same for all names. -/
def fixedText : String := String.join (fixedLines.map fun line => line ++ "\n")

theorem toList_join_lines (lines : List String) :
    (String.join (lines.map fun line => line ++ "\n")).toList =
      lines.flatMap fun line => line.toList ++ ['\n'] := by
  induction lines with
  | nil => rfl
  | cons line lines ih =>
      rw [List.map_cons, String.join_cons, String.toList_append, String.toList_append, ih,
        List.flatMap_cons]
      rfl

/-- The example is its first line and the fixed text behind it. -/
theorem source_eq (s : Scaffold) : s.source = s.idLine ++ "\n" ++ fixedText := by
  have lines : s.sourceLines = s.idLine :: fixedLines := rfl
  rw [source, lines, List.map_cons, String.join_cons, fixedText]

namespace Example

/-- The step of a host that gives access to its network. -/
def connect : AttackStep where
  kind := .anyOf
  name := ⟨"connect", ⟨58, 65, 5⟩⟩
  tags := []
  cia := none
  ttc := none
  remarks := []
  requires := none
  reaches := some ⟨false, [.collect (.field ⟨"network", ⟨75, 82, 6⟩⟩ ⟨75, 82, 6⟩)
    (.field ⟨"access", ⟨83, 89, 6⟩⟩ ⟨83, 89, 6⟩) ⟨75, 89, 6⟩], ⟨72, 74, 6⟩⟩
  span := ⟨56, 65, 5⟩

/-- The step of a network that gives access to its hosts. -/
def access : AttackStep where
  kind := .anyOf
  name := ⟨"access", ⟨119, 125, 10⟩⟩
  tags := []
  cia := none
  ttc := some (.distribution ⟨"Exponential", ⟨127, 138, 10⟩⟩ [0.1] ⟨127, 143, 10⟩)
  remarks := []
  requires := none
  reaches := some ⟨false, [.collect (.field ⟨"hosts", ⟨154, 159, 11⟩⟩ ⟨154, 159, 11⟩)
    (.field ⟨"connect", ⟨160, 167, 11⟩⟩ ⟨160, 167, 11⟩) ⟨154, 167, 11⟩], ⟨151, 153, 11⟩⟩
  span := ⟨117, 125, 10⟩

/-- Hosts, of the category `System`. -/
def host : Asset where
  isAbstract := false
  name := ⟨"Host", ⟨45, 49, 4⟩⟩
  parent := none
  remarks := []
  steps := [connect]
  bindings := []
  span := ⟨39, 49, 4⟩

/-- Networks, of the same category. -/
def network : Asset where
  isAbstract := false
  name := ⟨"Network", ⟨103, 110, 9⟩⟩
  parent := none
  remarks := []
  steps := [access]
  bindings := []
  span := ⟨97, 110, 9⟩

/-- Hosts and networks are associated with each other. -/
def connection : Association where
  leftAsset := ⟨"Host", ⟨192, 196, 16⟩⟩
  leftField := ⟨"hosts", ⟨198, 203, 16⟩⟩
  leftMult := ⟨.many, .many⟩
  name := ⟨"Connection", ⟨211, 221, 16⟩⟩
  rightMult := ⟨.many, .many⟩
  rightField := ⟨"network", ⟨229, 236, 16⟩⟩
  rightAsset := ⟨"Network", ⟨238, 245, 16⟩⟩
  remarks := []
  span := ⟨192, 245, 16⟩

/-- The define that follows the one for the name. -/
def version : Define := ⟨⟨"version", ⟨1, 8, 1⟩⟩, "0.1.0", ⟨0, 17, 1⟩⟩

/-- The category with both assets. -/
def system : Category := ⟨⟨"System", ⟨28, 34, 3⟩⟩, [], [host, network], ⟨19, 34, 3⟩⟩

/-- The fixed text, read on its own. -/
def spec : Spec := ⟨[.declaration (.define version), .declaration (.category system),
  .declaration (.associations [connection])]⟩

variable {d : Define} {f : Span → Span} {n p x t : String} {s : AttackStep} {e : Expr}

/-- What a source declares that defines something first and goes on with the example. -/
def entities (d : Define) (f : Span → Span) : List Entity :=
  .define d :: (spec.relocate f).declarations.flatMap Declaration.entities

theorem assets_entities : assets (entities d f) =
    [("System", host.relocate f), ("System", network.relocate f)] := rfl

theorem associations_entities : associations (entities d f) = [connection.relocate f] := rfl

theorem defines_entities : defines (entities d f) = [d, version.relocate f] := rfl

/-- There are two steps, one for each asset. -/
theorem declaresStep_iff : DeclaresStep (entities d f) n s ↔
    "Host" = n ∧ s = connect.relocate f ∨ "Network" = n ∧ s = access.relocate f := by
  rw [DeclaresStep, assets_entities]
  simp [host, network, Asset.relocate, Ident.relocate]

theorem asset_iff : (schemaOf (entities d f)).asset n ↔ "Host" = n ∨ "Network" = n := by
  simp [schemaOf, assets_entities, host, network, Asset.relocate, Ident.relocate]

theorem not_parent : ¬ (schemaOf (entities d f)).parent n p := by
  simp [schemaOf, assets_entities, host, network, Asset.relocate]

/-- The association gives each asset one field. -/
theorem field_iff : (schemaOf (entities d f)).field n x t ↔
    "Host" = n ∧ "network" = x ∧ "Network" = t ∨ "Network" = n ∧ "hosts" = x ∧ "Host" = t := by
  simp [schemaOf, associations_entities, Association.Gives, connection, Association.relocate,
    Ident.relocate]

theorem not_binding : ¬ (schemaOf (entities d f)).binding n x e := by
  simp [schemaOf, assets_entities, host, network, Asset.relocate]

theorem step_iff : (schemaOf (entities d f)).step n x ↔
    "Host" = n ∧ "connect" = x ∨ "Network" = n ∧ "access" = x := by
  simp only [schemaOf, declaresStep_iff]
  simp [or_and_right, exists_or, connect, access, AttackStep.relocate, Ident.relocate]

/-- Nothing is inherited from anything. -/
theorem not_inherits : ¬ (schemaOf (entities d f)).Inherits n p := by
  intro h
  induction h with
  | single edge => exact not_parent edge.1
  | tail _ edge _ => exact not_parent edge.1

/-- The step of a host has nothing that could be wrong with it. -/
theorem legal_connect : (connect.relocate f).Legal where
  existence h := nomatch h
  requires _ := rfl
  classification h := nomatch h
  defense h := nomatch h
  attack _ _ h := nomatch h
  time _ h := nomatch h

/-- The one distribution in the example has the one parameter it needs, and it is positive. -/
theorem parameterized_exponential : Ttc.Parameterized "Exponential" [0.1] := by
  refine ⟨⟨"Exponential", ["lambda"], some .lambda⟩, by decide, rfl, rfl, fun r hr => ?_⟩
  obtain rfl := Option.some.inj hr
  decide

theorem legal_access : (access.relocate f).Legal where
  existence h := nomatch h
  requires _ := rfl
  classification h := nomatch h
  defense h := nomatch h
  attack _ t h := by
    obtain rfl := Option.some.inj h
    simp [Ttc.relocate, Ttc.distributionName?, Ident.relocate]
  time t h := by
    obtain rfl := Option.some.inj h
    intro name ps ops occurs
    cases occurs
    exact ⟨parameterized_exponential, fun _ => List.forall_mem_nil _, fun _ => rfl⟩

theorem namesDistinct (key : d.key.name = "id") : NamesDistinct (entities d f) where
  defines := by
    rw [defines_entities, List.map_cons, key]
    change ["id", "version"].Nodup
    decide
  assets := by
    rw [assets_entities]
    change ["Host", "Network"].Nodup
    decide
  members := by
    rw [assets_entities, List.forall_mem_cons, List.forall_mem_singleton]
    exact ⟨⟨List.nodup_singleton _, List.nodup_nil⟩, ⟨List.nodup_singleton _, List.nodup_nil⟩⟩

/-- There is a define for the name and one for the version. -/
theorem identified (key : d.key.name = "id") (value : d.value ≠ "") :
    Identified (entities d f) where
  id := ⟨d, defines_entities ▸ List.mem_cons_self, key, value⟩
  version :=
    have known : version.value ≠ "" ∧ IsVersion version.value := ⟨by decide, 0, 1, 0, by decide⟩
    ⟨version.relocate f, defines_entities ▸ List.mem_cons_of_mem _ List.mem_cons_self, rfl, known⟩

/-- No field stands beside a step or another field of its name. -/
theorem fieldsSound : FieldsSound (entities d f) where
  ends := by
    rw [associations_entities, List.forall_mem_singleton]
    exact ⟨asset_iff.mpr (.inl rfl), asset_iff.mpr (.inr rfl)⟩
  distinct := by
    rw [associations_entities]
    change [("Host", "network"), ("Network", "hosts")].Nodup
    decide
  notStep := by
    intro n x t field step
    rw [field_iff] at field
    rw [step_iff] at step
    rcases field with ⟨rfl, rfl, -⟩ | ⟨rfl, rfl, -⟩
    · exact absurd step (by decide)
    · exact absurd step (by decide)
  notInherited n m x t u h := absurd h not_inherits

theorem stepsSound : StepsSound (entities d f) where
  legal := by
    intro n s hs
    rcases declaresStep_iff.mp hs with ⟨-, rfl⟩ | ⟨-, rfl⟩
    · exact legal_connect
    · exact legal_access
  appends := by
    intro n s hs adds
    rcases declaresStep_iff.mp hs with ⟨-, rfl⟩ | ⟨-, rfl⟩
    · cases adds
    · cases adds
  kinds n m s t h := absurd h not_inherits

/-- A field of the asset itself leads to a step of the asset behind it. -/
theorem leadsTo_field {y : String} {a b g h k : Span}
    (field : (schemaOf (entities d f)).field n x t) (step : (schemaOf (entities d f)).step t y) :
    (schemaOf (entities d f)).LeadsTo n
      (.collect (.field ⟨x, a⟩ b) (.field ⟨y, g⟩ h) k) ⟨t, y⟩ := by
  have known : (schemaOf (entities d f)).asset n :=
    asset_iff.mpr ((field_iff.mp field).imp And.left And.left)
  exact .collect (.field (.here known ⟨t, field⟩) field) (.step .refl step)

/-- Both steps reach the other one over the field of their asset. -/
theorem expressionsSound : ExpressionsSound (entities d f) where
  notInherited n m x e e' h := absurd h not_inherits
  bindings n x e h := absurd h not_binding
  requires := by
    intro n s r hs asks
    rcases declaresStep_iff.mp hs with ⟨-, rfl⟩ | ⟨-, rfl⟩
    · cases asks
    · cases asks
  reaches := by
    intro n s r hs leads e he
    rcases declaresStep_iff.mp hs with ⟨rfl, rfl⟩ | ⟨rfl, rfl⟩
    · obtain rfl := Option.some.inj leads
      obtain rfl := List.mem_singleton.mp he
      have field := field_iff (d := d) (f := f).mpr (.inl ⟨rfl, rfl, rfl⟩)
      exact ⟨_, leadsTo_field field (step_iff.mpr (.inr ⟨rfl, rfl⟩))⟩
    · obtain rfl := Option.some.inj leads
      obtain rfl := List.mem_singleton.mp he
      have field := field_iff (d := d) (f := f).mpr (.inr ⟨rfl, rfl, rfl⟩)
      exact ⟨_, leadsTo_field field (step_iff.mpr (.inl ⟨rfl, rfl⟩))⟩

/-- The example follows all rules, once the identifier is defined. -/
theorem wellFormed (key : d.key.name = "id") (value : d.value ≠ "") :
    WellFormed (entities d f) where
  names := namesDistinct key
  remarks := by
    intro rs hrs
    have none : ∀ rs ∈ (entities d f).flatMap Entity.remarkLists, rs = [] := by
      change ∀ rs ∈ [[], [], [], [], [], []], rs = []
      simp
    rw [none rs hrs]
    exact List.nodup_nil
  identified := identified key value
  grounded := {
    parents := fun n p h => absurd h not_parent
    acyclic := fun n => not_inherits }
  fields := fieldsSound
  steps := stepsSound
  expressions := expressionsSound

end Example

/-- The fixed text has no name in it, so reading it can be evaluated. -/
theorem ofSource_fixedText : Spec.ofSource fixedText = .ok Example.spec := by
  -- line by line, as the characters of a long text are slow to evaluate
  rw [Spec.ofSource, lexemes, scan, fixedText, toList_join_lines]
  decide +kernel

/-! ### The whole example -/

/-- What the example is read as. -/
def spec (s : Scaffold) : Spec :=
  ⟨.declaration (.define s.idDefine) :: (Example.spec.relocate (.behind s.idLine)).items⟩

/-- Whatever the name, if it is escaped, the example is read as this specification. -/
theorem ofSource_source (units : Escaped s.name.toList) : Spec.ofSource s.source = .ok s.spec := by
  rw [source_eq, Spec.ofSource_join (ofSource_idLine (escaped_identifier units)),
    ofSource_fixedText]
  rfl

/-- What analyzing the example comes to. -/
def analysis (s : Scaffold) : Analysis :=
  .ofDeclared (.of (Example.entities s.idDefine (.behind s.idLine)))

/-- The example keeps all rules. -/
theorem wellFormed_spec (s : Scaffold) :
    WellFormed (Example.entities s.idDefine (.behind s.idLine)) :=
  Example.wellFormed rfl (by
    change "org.example." ++ _ ≠ ""
    simp)

/-- No error is reported for the example. -/
theorem errors_analysis (s : Scaffold) : s.analysis.errors = [] :=
  errors_ofDeclared_eq_nil_iff.mpr s.wellFormed_spec

/-- No warning is reported for the example. -/
theorem warnings_analysis (s : Scaffold) : s.analysis.warnings = [] := by
  apply warnings_ofDeclared_eq_nil s.wellFormed_spec
  · rw [Example.assets_entities, List.forall_mem_cons, List.forall_mem_singleton]
    exact ⟨rfl, rfl⟩
  · intro x hx step hstep
    rcases Example.declaresStep_iff.mp ⟨x, hx, rfl, hstep⟩ with ⟨-, rfl⟩ | ⟨-, rfl⟩ <;> rfl

/-- The defines that the manifest shows. -/
theorem defines_analysis (s : Scaffold) :
    s.analysis.registry.defines.entries.map (fun d => (d.key, d.value)) =
      [("id", s.specId), ("version", "0.1.0")] := by
  rw [analysis, defines_ofDeclared s.wellFormed_spec, Example.defines_entities]
  rfl

end Scaffold
end MetaAttack
