import Mathlib.Data.List.Chain
import MetaAttack.Proofs.StepGrammar
import MetaAttack.Spec.Declaration.Parser

/-!
# The grammar of specifications

A specification is a sequence of defines, includes, categories and blocks of associations. Whatever
is derived from the grammar is read, with one exception: behind a step that has no clauses, an
existence step with the name `info` is taken for a remark with the key `E`, as both begin with the
same two words.

## Implementation notes

A `Dialect` says how much of this is part of the grammar: which members may follow each other in an
asset, and whether a comma may stand behind the last item of a list between brackets.
-/

namespace MetaAttack

variable {ts us rest : List Lexeme} {eof : Span}

/-! ### Members -/

/-- `let name = expr`. -/
inductive Variable.Derives : Phrase Variable
  | mk {ts : List Lexeme} {e : Expr} {name : String} {start s equals : Span}
      (h : Expr.Derives .sum ts e) :
      Derives (⟨.keyword .binding, start⟩ :: ⟨.ident name, s⟩ :: ⟨.sign .equals, equals⟩ :: ts)
        ⟨⟨name, s⟩, e, start.merge s⟩

/-- A derived variable is read, if its expression does not go on behind it. -/
theorem Variable.reads {e : Expr} {name : String} {start s equals : Span}
    (h : Expr.Derives .sum ts e) (avoids : Avoids Expr.signs rest) :
    Reads (read start eof (⟨.ident name, s⟩ :: ⟨.sign .equals, equals⟩ :: (ts ++ rest)))
      ⟨⟨name, s⟩, e, start.merge s⟩ rest := by
  have ends : Expr.Ends rest :=
    ⟨Expr.uncalled_of_avoids avoids (by decide), avoids.mono (by decide)⟩
  rw [read]
  exact (reads_ident ..).bind fun _ => (reads_sign ..).bind fun _ => (h.reads ends).bind fun _ =>
    .pure _

namespace Member

/-- A step or a variable. -/
inductive Derives (trailing : Prop) : Phrase Member
  | step {ts : List Lexeme} {s : AttackStep} (h : AttackStep.Derives trailing ts s) :
      Derives trailing ts (step s)
  | binding {ts : List Lexeme} {v : Variable} (h : Variable.Derives ts v) :
      Derives trailing ts (binding v)

/-- The second member does not look like a remark of the first. -/
def Separate : Member → Member → Prop
  | step s, step t =>
      s.requires = none → s.reaches = none → t.kind = .existence → t.name.name ≠ "info"
  | step _, binding _ | binding _, _ => True

variable {trailing : Prop} {m : Member} {ms : List Member}

/-- The signs that start a member. -/
def signs : List Sign := [.pipe, .ampersand, .hash, .bang]

/-- Every member opens with a sign of a step, or with the keyword of a variable. -/
theorem Derives.opens (h : Derives trailing ts m) : Opens signs (ts ++ rest) := by
  cases h with
  | step h =>
      obtain ⟨hkind, _⟩ := h
      cases hkind <;> simp [signs]
  | binding h =>
      cases h
      simp

theorem opens_members (h : Many (Derives trailing) ts ms) : Opens signs ts := by
  cases h with
  | nil => simp
  | cons first _ => exact first.opens

theorem Derives.unremarked {s : AttackStep} (h : Derives trailing ts m)
    (apart : Separate (.step s) m) (requires : s.requires = none) (reaches : s.reaches = none) :
    Unremarked (ts ++ rest) := by
  cases h with
  | binding h =>
      cases h
      exact unremarked_cons (by simp)
  | step h =>
      have other := apart requires reaches
      obtain ⟨hkind, _⟩ := h
      cases hkind with
      | existence =>
          rintro key s' word r same
          simp only [List.cons_append, List.nil_append, List.cons.injEq, Lexeme.mk.injEq,
            Token.ident.injEq] at same
          exact other rfl same.2.1.1
      | anyOf | allOf | defense | absence => exact unremarked_cons (by simp)

/-- What stands behind a step is no remark on it. -/
theorem unremarked_members {s : AttackStep} {close : Span} (h : Many (Derives trailing) ts ms)
    (apart : ∀ m ∈ ms.head?, Separate (.step s) m) (requires : s.requires = none)
    (reaches : s.reaches = none) : Unremarked (ts ++ ⟨.sign .rbrace, close⟩ :: rest) := by
  cases h with
  | nil => exact unremarked_cons (by simp)
  | cons first _ =>
      rw [List.append_assoc]
      exact first.unremarked (apart _ rfl) requires reaches

/-- Members are read up to a closing brace, if none looks like a remark of the one before it. -/
theorem reads_members {close : Span} (h : Many (Derives trailing) ts ms)
    (separate : ms.IsChain Separate) :
    Reads (readAll eof (ts ++ ⟨.sign .rbrace, close⟩ :: rest)) ms
      (⟨.sign .rbrace, close⟩ :: rest) := by
  induction h with
  | nil =>
      rw [List.nil_append, readAll, sign?_self]
      · exact .pure _
      · rintro start ⟨⟩
  | @cons ts us m ms first more ih =>
      have read := ih separate.tail
      have avoids : Avoids AttackStep.signs (us ++ ⟨.sign .rbrace, close⟩ :: rest) :=
        Avoids.append (by simp [AttackStep.signs, Expr.signs]) (opens_members more) (by decide)
      cases first with
      | step h =>
          have unclosed : sign? .rbrace (ts ++ (us ++ ⟨.sign .rbrace, close⟩ :: rest)) = none := by
            obtain ⟨hkind, _⟩ := h
            cases hkind <;> rfl
          have begins :
              AttackStep.begins (ts ++ (us ++ ⟨.sign .rbrace, close⟩ :: rest)) = true := by
            obtain ⟨hkind, _⟩ := h
            rw [List.append_assoc]
            exact hkind.begins
          rw [List.append_assoc, readAll.eq_def, unclosed, begins]
          refine (h.reads avoids ?_).bind fun _ => read.bind fun _ => .pure _
          exact unremarked_members more (List.isChain_cons.mp separate).1
      | binding h =>
          obtain ⟨e⟩ := h
          rw [List.append_assoc, List.cons_append, List.cons_append, List.cons_append, readAll]
          exact (Variable.reads e (avoids.mono (by decide))).bind fun _ =>
            read.bind fun _ => .pure _

end Member

/-! ### Assets and categories -/

/-- How much of a specification is part of the grammar. -/
structure Dialect where
  /-- Whether a comma may stand behind the last item of a list between brackets. -/
  trailing : Prop
  /-- Whether the second member may come right behind the first. -/
  next : Member → Member → Prop

/-- `extends Name`. -/
inductive Parent : Phrase Ident
  | mk {name : String} {word s : Span} :
      Parent [⟨.keyword .extension, word⟩, ⟨.ident name, s⟩] ⟨name, s⟩

/-- An asset from its name on. -/
inductive Asset.Named (d : Dialect) (isAbstract : Bool) (start : Span) : Phrase Asset
  | mk {parents marks body : List Lexeme} {name : String} {s opening close : Span}
      {parent : Option Ident} {remarks : List Remark} {members : List Member}
      (hparent : Optional Parent parents parent) (hremarks : Many Remark.Derives marks remarks)
      (hmembers : Many (Member.Derives d.trailing) body members)
      (order : members.IsChain d.next) :
      Named d isAbstract start
        (⟨.ident name, s⟩ :: (parents ++ (marks ++ ⟨.sign .lbrace, opening⟩ ::
          (body ++ [⟨.sign .rbrace, close⟩]))))
        { isAbstract, name := ⟨name, s⟩, parent, remarks
          steps := members.filterMap Member.toStep?
          bindings := members.filterMap Member.toBinding?
          span := start.merge s }

/-- `asset` or `abstract asset`, and the rest of it. -/
inductive Asset.Derives (d : Dialect) : Phrase Asset
  | concrete {ts : List Lexeme} {a : Asset} {start : Span} (h : Named d false start ts a) :
      Derives d (⟨.keyword .asset, start⟩ :: ts) a
  | abstract {ts : List Lexeme} {a : Asset} {start word : Span} (h : Named d true start ts a) :
      Derives d (⟨.keyword .abstraction, start⟩ :: ⟨.keyword .asset, word⟩ :: ts) a

/-- `category Name`, remarks, and assets in braces. -/
inductive Category.Derives (d : Dialect) : Phrase Category
  | mk {marks body : List Lexeme} {name : String} {start s opening close : Span}
      {remarks : List Remark} {assets : List Asset} (hremarks : Many Remark.Derives marks remarks)
      (hassets : Many (Asset.Derives d) body assets) :
      Derives d
        (⟨.keyword .category, start⟩ :: ⟨.ident name, s⟩ :: (marks ++ ⟨.sign .lbrace, opening⟩ ::
          (body ++ [⟨.sign .rbrace, close⟩])))
        ⟨⟨name, s⟩, remarks, assets, start.merge s⟩

variable {d : Dialect}

/-- A parent is read where there is one, and none is made up where there is none. -/
theorem reads_parent {parent : Option Ident} (h : Optional Parent ts parent)
    (other : ∀ s r, rest ≠ ⟨.keyword .extension, s⟩ :: r) :
    Reads (readParent? eof (ts ++ rest)) parent rest := by
  cases h with
  | absent =>
      rw [List.nil_append, readParent?]
      · exact .pure _
      · exact fun s r => other s r
  | present h =>
      cases h
      rw [List.cons_append, List.singleton_append, readParent?]
      exact (reads_ident ..).bind fun _ => .pure _

/-- An asset is read to its end. -/
theorem Asset.Named.reads {a : Asset} {isAbstract : Bool} {start : Span}
    (separate : ∀ m n, d.next m n → m.Separate n) (h : Named d isAbstract start ts a) :
    Reads (readNamed isAbstract start eof (ts ++ rest)) a rest := by
  obtain ⟨hparent, hremarks, hmembers, order⟩ := h
  rw [List.cons_append, List.append_assoc, List.append_assoc, List.cons_append, List.append_assoc,
    List.singleton_append, readNamed]
  refine (reads_ident ..).bind fun _ => (reads_parent hparent ?_).bind fun _ => ?_
  · rcases hremarks with _ | ⟨⟨_⟩, _⟩ <;> simp
  refine (reads_remarks hremarks (unremarked_cons (by simp))).bind fun _ => ?_
  refine (reads_sign ..).bind fun _ => ?_
  refine (Member.reads_members hmembers (order.imp separate)).bind fun _ => ?_
  exact (reads_sign ..).bind fun _ => .pure _

/-- Assets are read up to a closing brace. -/
theorem Asset.reads_all {as : List Asset} {close : Span}
    (separate : ∀ m n, d.next m n → m.Separate n) (h : Many (Asset.Derives d) ts as) :
    Reads (readAll eof (ts ++ ⟨.sign .rbrace, close⟩ :: rest)) as
      (⟨.sign .rbrace, close⟩ :: rest) := by
  induction h with
  | nil =>
      rw [List.nil_append, readAll]
      exact .pure _
  | cons first _ ih =>
      rw [List.append_assoc]
      cases first with
      | concrete named =>
          rw [List.cons_append, readAll]
          exact (named.reads separate).bind fun _ => ih.bind fun _ => .pure _
      | abstract named =>
          rw [List.cons_append, List.cons_append, readAll]
          exact (reads_exactly ..).bind fun _ =>
            (named.reads separate).bind fun _ => ih.bind fun _ => .pure _

/-! ### Associations -/

/-- One bound is one lexeme. -/
inductive Bound.Derives : Phrase Bound
  | mk {b : Bound} {l : Lexeme} (h : Bound.ofToken? l.token = some b) : Derives [l] b

/-- A multiplicity; a single bound counts twice. -/
inductive Multiplicity.Derives : Phrase Multiplicity
  | single {ts : List Lexeme} {b : Bound} (h : Bound.Derives ts b) : Derives ts ⟨b, b⟩
  | range {ts us : List Lexeme} {b c : Bound} {dots : Span} (hmin : Bound.Derives ts b)
      (hmax : Bound.Derives us c) : Derives (ts ++ ⟨.sign .dotDot, dots⟩ :: us) ⟨b, c⟩

/-- The name of a field between brackets. -/
inductive FieldName : Phrase Ident
  | mk {name : String} {opening s close : Span} :
      FieldName [⟨.sign .lbracket, opening⟩, ⟨.ident name, s⟩, ⟨.sign .rbracket, close⟩] ⟨name, s⟩

/-- `Left [leftField] m <-- Name --> m [rightField] Right`, with remarks behind it. -/
inductive Association.Derives : Phrase Association
  | mk {lefts leftMults rightMults rights marks : List Lexeme} {left name right : String}
      {s leftArm s' rightArm s'' : Span} {leftField rightField : Ident}
      {leftMult rightMult : Multiplicity} {remarks : List Remark}
      (hleft : FieldName lefts leftField) (hleftMult : Multiplicity.Derives leftMults leftMult)
      (hrightMult : Multiplicity.Derives rightMults rightMult)
      (hright : FieldName rights rightField) (hremarks : Many Remark.Derives marks remarks) :
      Derives
        (⟨.ident left, s⟩ :: (lefts ++ (leftMults ++ ⟨.sign .leftArm, leftArm⟩ ::
          ⟨.ident name, s'⟩ :: ⟨.sign .rightArm, rightArm⟩ :: (rightMults ++ (rights ++
            ⟨.ident right, s''⟩ :: marks)))))
        { leftAsset := ⟨left, s⟩, leftField, leftMult, name := ⟨name, s'⟩, rightMult, rightField
          rightAsset := ⟨right, s''⟩, remarks, span := s.merge s'' }

theorem Bound.Derives.reads {b : Bound} (h : Bound.Derives ts b) :
    Reads (Bound.read eof (ts ++ rest)) b rest := by
  cases h with
  | @mk b l h =>
      obtain ⟨_, read⟩ : Reads
          (accept Bound.ofToken? (fun l => .invalidMultiplicity l.token l.span) .anyToken eof
            (l :: rest)) (b, l.span) rest := reads_accept h
      rw [List.singleton_append, Bound.read, read]
      exact .pure _

/-- A single bound must not be followed by dots, or it would be taken for the lower one. -/
theorem Multiplicity.Derives.reads {m : Multiplicity} (h : Multiplicity.Derives ts m)
    (single : Avoids [.dotDot] rest) : Reads (Multiplicity.read eof (ts ++ rest)) m rest := by
  cases h with
  | single h =>
      rw [Multiplicity.read]
      refine h.reads.bind fun _ => ?_
      dsimp only
      rw [sign?_of_avoids single List.mem_cons_self]
      exact .pure _
  | range hmin hmax =>
      rw [List.append_assoc, List.cons_append, Multiplicity.read]
      refine hmin.reads.bind fun _ => ?_
      dsimp only
      rw [sign?_self]
      exact hmax.reads.bind fun _ => .pure _

/-- The brackets are read and dropped. -/
theorem FieldName.reads {name : Ident} (h : FieldName ts name) :
    Reads (readFieldName eof (ts ++ rest)) name rest := by
  cases h
  rw [List.cons_append, List.cons_append, List.singleton_append, readFieldName]
  exact (reads_sign ..).bind fun _ => (reads_ident ..).bind fun _ => (reads_sign ..).bind fun _ =>
    .pure _

/-- What stands behind an association must be no remark, or it would be read as one on it. -/
theorem Association.Derives.reads {a : Association} (h : Association.Derives ts a)
    (unremarked : Unremarked rest) : Reads (Association.read eof (ts ++ rest)) a rest := by
  obtain ⟨hleft, hleftMult, hrightMult, hright, hremarks⟩ := h
  rw [List.cons_append, List.append_assoc, List.append_assoc, List.cons_append, List.cons_append,
    List.cons_append, List.append_assoc, List.append_assoc, List.cons_append, Association.read]
  refine (reads_ident ..).bind fun _ => hleft.reads.bind fun _ => ?_
  refine (hleftMult.reads (by simp)).bind fun _ => (reads_sign ..).bind fun _ => ?_
  refine (reads_ident ..).bind fun _ => (reads_sign ..).bind fun _ => ?_
  refine (hrightMult.reads ?_).bind fun _ => hright.reads.bind fun _ => ?_
  · cases hright
    simp
  exact (reads_ident ..).bind fun _ => (reads_remarks hremarks unremarked).bind fun _ => .pure _

/-- Associations are read up to a closing brace. -/
theorem Association.reads_all {as : List Association} {close : Span}
    (h : Many Association.Derives ts as) :
    Reads (readAll eof (ts ++ ⟨.sign .rbrace, close⟩ :: rest)) as
      (⟨.sign .rbrace, close⟩ :: rest) := by
  induction h with
  | nil =>
      rw [List.nil_append, readAll]
      exact .pure _
  | @cons ts us a as first more ih =>
      -- the next association has a bracket behind its first name
      have unremarked : Unremarked (us ++ ⟨.sign .rbrace, close⟩ :: rest) := by
        cases more with
        | nil => exact unremarked_cons (by simp)
        | cons next _ =>
            obtain ⟨⟨⟩⟩ := next
            rintro key s word r same
            simp at same
      have read : Reads (Association.read eof (ts ++ (us ++ ⟨.sign .rbrace, close⟩ :: rest))) a
          (us ++ ⟨.sign .rbrace, close⟩ :: rest) := first.reads unremarked
      rw [List.append_assoc]
      obtain ⟨_⟩ := first
      rw [List.cons_append] at read ⊢
      rw [readAll]
      · exact read.bind fun _ => ih.bind fun _ => .pure _
      · simp

/-! ### Specifications -/

/-- Defines, includes, categories and blocks of associations. -/
inductive Item.Derives (d : Dialect) : Phrase Item
  | define {key value : String} {start s colon s' : Span} :
      Derives d
        [⟨.sign .hash, start⟩, ⟨.ident key, s⟩, ⟨.sign .colon, colon⟩, ⟨.string value, s'⟩]
        (.declaration (.define ⟨⟨key, s⟩, value, start.merge s'⟩))
  | inclusion {path : String} {start s : Span} :
      Derives d [⟨.keyword .inclusion, start⟩, ⟨.string path, s⟩]
        (.inclusion ⟨path, start.merge s⟩)
  | category {ts : List Lexeme} {c : Category} (h : Category.Derives d ts c) :
      Derives d ts (.declaration (.category c))
  | associations {body : List Lexeme} {as : List Association} {start opening close : Span}
      (h : Many Association.Derives body as) :
      Derives d
        (⟨.keyword .associations, start⟩ :: ⟨.sign .lbrace, opening⟩ ::
          (body ++ [⟨.sign .rbrace, close⟩]))
        (.declaration (.associations as))

/-- The lexemes are a specification of the dialect. -/
def Spec.Derives (d : Dialect) (ts : List Lexeme) (spec : Spec) : Prop :=
  Many (Item.Derives d) ts spec.items

theorem Item.Derives.ne_nil {i : Item} (h : Item.Derives d ts i) : ts ≠ [] := by
  rcases h with _ | _ | ⟨⟨⟩⟩ | _ <;> simp

/-- An item is read up to its end, in each dialect that keeps members separate. -/
theorem Item.Derives.reads {i : Item} (separate : ∀ m n, d.next m n → m.Separate n)
    (h : Item.Derives d ts i) : Reads (Item.read eof (ts ++ rest)) i rest := by
  cases h with
  | define =>
      rw [List.cons_append, List.cons_append, List.cons_append, List.singleton_append, Item.read]
      exact (reads_ident ..).bind fun _ => (reads_sign ..).bind fun _ =>
        (reads_stringLiteral ..).bind fun _ => .pure _
  | inclusion =>
      rw [List.cons_append, List.singleton_append, Item.read]
      exact (reads_stringLiteral ..).bind fun _ => .pure _
  | category h =>
      obtain ⟨hremarks, hassets⟩ := h
      rw [List.cons_append, List.cons_append, List.append_assoc, List.cons_append,
        List.append_assoc, List.singleton_append, Item.read, Category.read]
      refine Reads.bind ?_ fun _ => .pure _
      refine (reads_ident ..).bind fun _ => ?_
      refine (reads_remarks hremarks (unremarked_cons (by simp))).bind fun _ => ?_
      refine (reads_sign ..).bind fun _ => (Asset.reads_all separate hassets).bind fun _ => ?_
      exact (reads_sign ..).bind fun _ => .pure _
  | associations h =>
      rw [List.cons_append, List.cons_append, List.append_assoc, List.singleton_append, Item.read]
      refine (reads_sign ..).bind fun _ => (Association.reads_all h).bind fun _ => ?_
      exact (reads_sign ..).bind fun _ => .pure _

/-- Behind items that are derived, reading goes on as if they were not there. -/
theorem Item.readAll_append {items : List Item} (separate : ∀ m n, d.next m n → m.Separate n)
    (h : Many (Item.Derives d) ts items) :
    Item.readAll eof (ts ++ rest) = (Item.readAll eof rest).map (items ++ ·) := by
  induction h with
  | nil =>
      rw [List.nil_append]
      cases Item.readAll eof rest <;> rfl
  | @cons ts us i items first _ ih =>
      have some : (ts ++ (us ++ rest)).isEmpty = false := by
        simp [first.ne_nil]
      obtain ⟨_, read⟩ : Reads (Item.read eof (ts ++ (us ++ rest))) i (us ++ rest) :=
        first.reads separate
      rw [List.append_assoc, Item.readAll, some, if_neg Bool.false_ne_true, read]
      change (do
        let more ← Item.readAll eof (us ++ rest)
        return i :: more) = _
      rw [ih]
      cases Item.readAll eof rest <;> rfl

/-- Item after item, by induction on how many there are. -/
theorem Item.readAll_of_derives {items : List Item} (separate : ∀ m n, d.next m n → m.Separate n)
    (h : Many (Item.Derives d) ts items) : Item.readAll eof ts = .ok items := by
  have read : Item.readAll eof (ts ++ []) = _ := readAll_append separate h
  rw [List.append_nil] at read
  rw [read, readAll]
  exact congrArg Except.ok (List.append_nil items)

namespace Dialect

/-- The documented grammar. -/
def documented : Dialect := ⟨False, fun _ _ => True⟩

/-- The documented grammar without members that look like remarks. -/
def separate : Dialect := ⟨False, Member.Separate⟩

end Dialect

/-- What is derived from the documented grammar is read, unless it has a member that looks like a
remark of the one before it. -/
theorem Spec.ofSource_of_derives {source : String} {spec : Spec}
    (lexed : lexemes source = .ok ts) (h : Spec.Derives .separate ts spec) :
    Spec.ofSource source = .ok spec := by
  rw [Spec.ofSource, lexed]
  change (Item.readAll _ ts).map Spec.mk = _
  rw [Item.readAll_of_derives (fun _ _ h => h) h]
  rfl

/-! ### A step with the name of a remark -/

namespace InfoStep

/-- `| a` -/
def plain : AttackStep := ⟨.anyOf, ⟨"a", ⟨25, 26, 1⟩⟩, [], none, none, [], none, none, ⟨23, 26, 1⟩⟩

/-- `| a -> b` -/
def leading : AttackStep :=
  { plain with reaches := some ⟨false, [.field ⟨"b", ⟨30, 31, 1⟩⟩ ⟨30, 31, 1⟩], ⟨27, 29, 1⟩⟩ }

/-- `E info <- x`, from a byte on. -/
def info (offset : Nat) : AttackStep :=
  ⟨.existence, ⟨"info", ⟨offset + 2, offset + 6, 1⟩⟩, [], none, none, [],
    some ⟨[.field ⟨"x", ⟨offset + 10, offset + 11, 1⟩⟩ ⟨offset + 10, offset + 11, 1⟩],
      ⟨offset + 7, offset + 9, 1⟩⟩,
    none, Span.merge ⟨offset, offset + 1, 1⟩ ⟨offset + 2, offset + 6, 1⟩⟩

/-- The lexemes of that step, from an offset on. -/
def infoLexemes (offset : Nat) : List Lexeme :=
  [⟨.ident "E", ⟨offset, offset + 1, 1⟩⟩, ⟨.ident "info", ⟨offset + 2, offset + 6, 1⟩⟩,
    ⟨.sign .requires, ⟨offset + 7, offset + 9, 1⟩⟩, ⟨.ident "x", ⟨offset + 10, offset + 11, 1⟩⟩]

/-- The lexemes of a step without expressions. -/
def plainLexemes : List Lexeme := [⟨.sign .pipe, ⟨23, 24, 1⟩⟩, ⟨.ident "a", ⟨25, 26, 1⟩⟩]

/-- The lexemes of a step with an expression. -/
def leadingLexemes : List Lexeme :=
  plainLexemes ++ [⟨.sign .reaches, ⟨27, 29, 1⟩⟩, ⟨.ident "b", ⟨30, 31, 1⟩⟩]

/-- The lexemes of a category with one asset that has these members. -/
def around (members : List Lexeme) (inner outer : Span) : List Lexeme :=
  ⟨.keyword .category, ⟨0, 8, 1⟩⟩ :: ⟨.ident "C", ⟨9, 10, 1⟩⟩ :: ⟨.sign .lbrace, ⟨11, 12, 1⟩⟩ ::
    ⟨.keyword .asset, ⟨13, 18, 1⟩⟩ :: ⟨.ident "A", ⟨19, 20, 1⟩⟩ ::
    ⟨.sign .lbrace, ⟨21, 22, 1⟩⟩ :: (members ++ [⟨.sign .rbrace, inner⟩, ⟨.sign .rbrace, outer⟩])

/-- The asset with the step and the existence step behind it. -/
def asset (s : AttackStep) (offset : Nat) : Asset :=
  ⟨false, ⟨"A", ⟨19, 20, 1⟩⟩, none, [], [s, info offset], [], ⟨13, 20, 1⟩⟩

/-- The two steps in an asset of their own. -/
def spec (s : AttackStep) (offset : Nat) : Spec where
  items := [.declaration (.category ⟨⟨"C", ⟨9, 10, 1⟩⟩, [], [asset s offset], ⟨0, 10, 1⟩⟩)]

theorem derives_name {n : String} {s : Span} :
    Expr.Derives .sum [⟨.ident n, s⟩] (.field ⟨n, s⟩ s) :=
  .chain (.operand (.primary .field))

/-- Each step is derived, with or without an expression. -/
theorem derives_plain : AttackStep.Derives False plainLexemes plain :=
  .mk .anyOf .nil .absent .absent .nil .absent .absent

theorem derives_leading : AttackStep.Derives False leadingLexemes leading :=
  .mk .anyOf .nil .absent .absent .nil .absent (.present (.reaches (.last derives_name)))

theorem derives_info (offset : Nat) : AttackStep.Derives False (infoLexemes offset) (info offset) :=
  .mk .existence .nil .absent .absent .nil (.present (.mk (.last derives_name))) .absent

/-- Next to each other they are derived in any dialect that lets one follow the other. -/
theorem derives_pair {next : Member → Member → Prop} {ts : List Lexeme} {s : AttackStep}
    (h : AttackStep.Derives False ts s) (offset : Nat)
    (order : next (.step s) (.step (info offset))) (inner outer : Span) :
    Spec.Derives ⟨False, next⟩ (around (ts ++ infoLexemes offset) inner outer) (spec s offset) := by
  have last : Many (Member.Derives False) (infoLexemes offset) [.step (info offset)] :=
    Many.cons (Member.Derives.step (derives_info offset)) .nil
  have members : Many (Member.Derives False) (ts ++ infoLexemes offset)
      [.step s, .step (info offset)] := .cons (Member.Derives.step h) last
  have derived : Asset.Derives ⟨False, next⟩
      (⟨.keyword .asset, ⟨13, 18, 1⟩⟩ :: ⟨.ident "A", ⟨19, 20, 1⟩⟩ ::
        ⟨.sign .lbrace, ⟨21, 22, 1⟩⟩ :: (ts ++ infoLexemes offset ++ [⟨.sign .rbrace, inner⟩]))
      (asset s offset) :=
    .concrete (@Asset.Named.mk ⟨False, next⟩ false ⟨13, 18, 1⟩ [] [] (ts ++ infoLexemes offset) "A"
      ⟨19, 20, 1⟩ ⟨21, 22, 1⟩ inner none [] _ .absent .nil members (List.isChain_pair.mpr order))
  have category : Category.Derives ⟨False, next⟩ (around (ts ++ infoLexemes offset) inner outer)
      ⟨⟨"C", ⟨9, 10, 1⟩⟩, [], [asset s offset], ⟨0, 10, 1⟩⟩ := by
    have shape : around (ts ++ infoLexemes offset) inner outer =
        ⟨.keyword .category, ⟨0, 8, 1⟩⟩ :: ⟨.ident "C", ⟨9, 10, 1⟩⟩ ::
          ([] ++ ⟨.sign .lbrace, ⟨11, 12, 1⟩⟩ ::
            ((⟨.keyword .asset, ⟨13, 18, 1⟩⟩ :: ⟨.ident "A", ⟨19, 20, 1⟩⟩ ::
              ⟨.sign .lbrace, ⟨21, 22, 1⟩⟩ ::
                (ts ++ infoLexemes offset ++ [⟨.sign .rbrace, inner⟩])) ++ [] ++
              [⟨.sign .rbrace, outer⟩])) := by simp [around]
    rw [shape]
    exact .mk .nil (.cons derived .nil)
  have all : Spec.Derives ⟨False, next⟩ (around (ts ++ infoLexemes offset) inner outer ++ [])
      (spec s offset) := .cons (.category category) .nil
  rwa [List.append_nil] at all

/-- The source in which an expression stands in front of the step named `info`. -/
def accepted : String := "category C { asset A { | a -> b E info <- x } }"

/-- The same source without the expression. -/
def refused : String := "category C { asset A { | a E info <- x } }"

end InfoStep

/-- Behind a clause the existence step `info` is read. -/
theorem Spec.ofSource_infoStep :
    lexemes InfoStep.accepted = .ok
        (InfoStep.around (InfoStep.leadingLexemes ++ InfoStep.infoLexemes 32)
          ⟨44, 45, 1⟩ ⟨46, 47, 1⟩) ∧
      Spec.Derives .separate
        (InfoStep.around (InfoStep.leadingLexemes ++ InfoStep.infoLexemes 32)
          ⟨44, 45, 1⟩ ⟨46, 47, 1⟩)
        (InfoStep.spec InfoStep.leading 32) ∧
      Spec.ofSource InfoStep.accepted = .ok (InfoStep.spec InfoStep.leading 32) := by
  have lexed : lexemes InfoStep.accepted = .ok
      (InfoStep.around (InfoStep.leadingLexemes ++ InfoStep.infoLexemes 32)
        ⟨44, 45, 1⟩ ⟨46, 47, 1⟩) := by decide +kernel
  have order : Member.Separate (.step InfoStep.leading) (.step (InfoStep.info 32)) :=
    fun _ led => nomatch led
  have derived := InfoStep.derives_pair InfoStep.derives_leading 32 order ⟨44, 45, 1⟩ ⟨46, 47, 1⟩
  exact ⟨lexed, derived, Spec.ofSource_of_derives lexed derived⟩

/-- Behind a step without clauses it is not, although it is derived from the documented grammar. -/
theorem Spec.ofSource_infoStep_refused :
    lexemes InfoStep.refused = .ok
        (InfoStep.around (InfoStep.plainLexemes ++ InfoStep.infoLexemes 27)
          ⟨39, 40, 1⟩ ⟨41, 42, 1⟩) ∧
      Spec.Derives .documented
        (InfoStep.around (InfoStep.plainLexemes ++ InfoStep.infoLexemes 27)
          ⟨39, 40, 1⟩ ⟨41, 42, 1⟩)
        (InfoStep.spec InfoStep.plain 27) ∧
      ∀ spec, Spec.ofSource InfoStep.refused ≠ .ok spec := by
  refine ⟨by decide +kernel, InfoStep.derives_pair InfoStep.derives_plain 27 trivial _ _, ?_⟩
  intro spec read
  have failed : (Spec.ofSource InfoStep.refused).isOk = false := by decide +kernel
  rw [read] at failed
  cases failed

end MetaAttack
