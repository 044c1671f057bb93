import MetaAttack.Typing.Judgement

/-!
# The work on an expression

A resolver holds the verdicts on variables and a stack of the variables that are being worked out.
`Registry.work` says form by form what it does: which call it makes next, in which state, and what
it makes of the answer. Calls are left open here. Work that needs one waits for it, so the text of
each case ends where the recursion would begin. It also notes what happens on the way: that a
variable is called, that work on its body begins, and that a cause is found.

## Implementation notes

A repeated variable is searched on the stack from the bottom, and the search falls back to the
bottom where the variable is not there. This case is part of `ResolverState.cycleNames`; it does not
occur, since the undecided variables are those on the stack.
-/

namespace MetaAttack

/-- What a resolver holds: the verdicts so far, and the variables that are being worked out, the
outermost first. -/
structure ResolverState where
  memo : Memo
  stack : List VariableRef
deriving DecidableEq, Repr

/-- A call of a variable, with the state that it meets. -/
structure VariableCall where
  ref : VariableRef
  state : ResolverState
deriving DecidableEq, Repr

namespace ResolverState

/-- Between questions no variable is being worked out. -/
def idle (m : Memo) : ResolverState := ⟨m, []⟩

/-- A resolver that was asked nothing yet. -/
def start : ResolverState := idle .empty

/-- Work on a variable begins. -/
def enter (s : ResolverState) (r : VariableRef) : ResolverState :=
  ⟨s.memo.record r .undecided, s.stack ++ [r]⟩

/-- Work on a variable, the innermost one, ends with a result. -/
def leave (s : ResolverState) (r : VariableRef) (x : Resolution String) : ResolverState :=
  ⟨s.memo.record r (.ofResult x), s.stack.dropLast⟩

/-- The names on the stack from the place of the variable on, or else from the bottom, and then its
own name. -/
def cycleNames (s : ResolverState) (r : VariableRef) : List String :=
  (s.stack.drop ((s.stack.findIdx? (· = r)).getD 0)).map VariableRef.name ++ [r.name]

/-- What a variable that was called before comes to. One that is being worked out is on a cycle. -/
def remembered (s : ResolverState) (r : VariableRef) (span : Span) : Verdict → Resolution String
  | .typed t => .ok t
  | .failed => .error []
  | .undecided => .error [.variableCycle r.name (s.cycleNames r) span]

end ResolverState

/-- What happens while a question is answered. -/
inductive Event
  | called (call : VariableCall)
  /-- Work on the body of the variable begins. -/
  | entered (r : VariableRef)
  | found (cause : ResolveError)

/-- The causes of a judgement are found with it. -/
def Resolution.events {α : Type} (x : Resolution α) : List Event := x.causes.map .found

/-- A call of the resolver, with the state that it meets. -/
inductive Task
  /-- The type of the variable that an asset itself declares. -/
  | binding (s : ResolverState) (r : VariableRef) (span : Span)
  /-- The type of an expression in the context of an asset. -/
  | type (s : ResolverState) (context : String) (e : Expr)
  /-- The attack step that an expression ends in. -/
  | step (s : ResolverState) (context : String) (e : Expr)

namespace Task

/-- What is asked for: an asset, or an attack step. -/
abbrev Target : Task → Type
  | binding _ _ _ | type _ _ _ => String
  | step _ _ _ => StepRef

/-- The state that the call meets. -/
def state : Task → ResolverState
  | binding s _ _ | type s _ _ | step s _ _ => s

end Task

/-- What a call comes to, and the state that is left. -/
structure Answer (α : Type) where
  result : Resolution α
  state : ResolverState

/-- Work that is done, that notes an event and goes on, or that waits for the answer to a call. -/
inductive Work (α : Type)
  | done (answer : Answer α)
  | note (event : Event) (rest : Work α)
  | await (q : Task) (next : Answer q.Target → Work α)

/-- The work that is left when a judgement is the answer. -/
def Work.judge {α : Type} (x : Resolution α) (s : ResolverState) : Work α :=
  x.events.foldr .note (.done ⟨x, s⟩)

namespace Answer

variable {α β γ : Type}

/-- What is known then. -/
def memo (a : Answer α) : Memo := a.state.memo

/-- Goes on with the result. If there is none, its causes are the answer. -/
def andThen (a : Answer α) (next : α → ResolverState → Work β) : Work β :=
  match a.result with
  | .ok t => next t a.state
  | .error causes => .done ⟨.error causes, a.state⟩

/-- Goes on with the results of two calls, the second made after the first. If one of them has
none, the causes of both are the answer. -/
def both (a : Answer α) (b : Answer β) (next : α → β → ResolverState → Work γ) : Work γ :=
  match a.result, b.result with
  | .ok t, .ok u => next t u b.state
  | x, y => .done ⟨.error (x.causes ++ y.causes), b.state⟩

end Answer

namespace Registry

/-- The work on a call, the calls that it makes itself left open. -/
def work (R : Registry) : (q : Task) → Work q.Target
  | .binding s r span =>
      .note (.called ⟨r, s⟩) <|
        match s.memo.find? r with
        | some v => .judge (s.remembered r span v) s
        | none =>
            match R.declaredVariable? r with
            | none => .judge (.error [.undefinedVariable r.name r.asset span]) s
            | some v =>
                .note (.entered r) <|
                  .await (.type (s.enter r) r.asset v.expr) fun a =>
                    .done ⟨a.result, a.state.leave r a.result⟩
  | .type s C (.field name _) => .judge (R.typeOfField C name) s
  | .type s C (.call name _) =>
      match R.findVariable? C name.name with
      | some (a, _) => .await (.binding s ⟨a.name, name.name⟩ name.span) .done
      | none => .judge (.error [.undefinedVariable name.name C name.span]) s
  | .type s C (.collect lhs rhs _) =>
      .await (.type s C lhs) fun a => a.andThen fun t s => .await (.type s t rhs) .done
  | .type s C (.combine _ lhs rhs span) =>
      .await (.type s C lhs) fun a =>
        .await (.type a.state C rhs) fun b =>
          a.both b fun left right s => .judge (R.typeOfSet span left right) s
  | .type s C (.closure inner span) =>
      .await (.type s C inner) fun a => a.andThen fun t s => .judge (R.typeOfClosure C span t) s
  | .type s C (.restrict inner subtype _) =>
      .await (.type s C inner) fun a =>
        a.andThen fun t s => .judge (R.typeOfRestriction subtype t) s
  | .step s C (.field name _) => .judge (R.stepOfField C name) s
  | .step s C (.collect lhs rhs _) =>
      .await (.type s C lhs) fun a => a.andThen fun t s => .await (.step s t rhs) .done
  | .step s _ (.call _ span) | .step s _ (.combine _ _ _ span) | .step s _ (.closure _ span)
  | .step s _ (.restrict _ _ span) => .judge (.error [.notAttackStep span]) s

end Registry

end MetaAttack
