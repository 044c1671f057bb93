import MetaAttack.CommandLine.Command

/-!
# Reading arguments

Switches may stand before and behind the operand of a command, and letters may share a dash. An
operand and the value of an option are taken in when the next argument is; so a fault in them comes
second to an argument behind them that is unknown. After `--`, every argument is an operand.
-/

namespace MetaAttack

/-- The switches of all commands. -/
inductive Switch
  | help
  | version
  | verbose
  | denyWarnings
  /-- The directory of a new project; the only switch with a value. -/
  | path
deriving DecidableEq, Repr

namespace Switch

/-- The name behind two dashes. -/
def long : Switch → String
  | help => "help"
  | version => "version"
  | verbose => "verbose"
  | denyWarnings => "deny-warnings"
  | path => "path"

/-- The letter behind a single dash, if there is one. -/
def letter? : Switch → Option Char
  | help => some 'h'
  | version => some 'V'
  | verbose => some 'v'
  | denyWarnings => none
  | path => some 'p'

end Switch

/-- The form of an argument. -/
inductive ArgumentForm
  /-- Two dashes and a word, with what stands behind an equals sign. -/
  | long (name : String) (value : Option String)
  | letters (cs : List Char)
  /-- Two dashes: what follows are operands. -/
  | separator
  | plain

/-- Takes an argument apart by its dashes. -/
def ArgumentForm.of (s : String) : ArgumentForm :=
  match s.toList with
  | ['-', '-'] => .separator
  | '-' :: '-' :: r =>
      .long (String.ofList (r.takeWhile (· ≠ '=')))
        (match r.dropWhile (· ≠ '=') with
          | _ :: value => some (String.ofList value)
          | [] => none)
  | '-' :: c :: r => .letters (c :: r)
  | _ => .plain

/-- What a command takes. -/
structure Signature where
  switches : List Switch
  /-- Whether the operand is a path; a path cannot be empty. -/
  takesPath : Bool

namespace Signature

/-- What is taken in front of a command. -/
def main : Signature := ⟨[.help, .version, .verbose], false⟩

/-- Sets up a new project. -/
def init : Signature := ⟨[.help, .verbose, .path], false⟩

/-- Checks a project or a file. -/
def check : Signature := ⟨[.help, .verbose, .denyWarnings], true⟩

end Signature

/-- What was read last and is not taken in yet. -/
inductive Pending
  | path (value : Option String)
  | operand (value : String)
deriving DecidableEq, Repr

/-- What the arguments so far say. -/
structure Gathered where
  verbosity : Nat
  denyWarnings : Bool
  path : Option String
  operand : Option String
  pending : Option Pending

namespace Gathered

def empty : Gathered := ⟨0, false, none, none, none⟩

/-- Takes in what is pending. -/
def settle (sig : Signature) (g : Gathered) : Except Interruption Gathered :=
  match g.pending with
  | none => .ok g
  | some (.path none) => .error .missingValue
  | some (.path (some v)) =>
      if g.path.isSome then .error .repeated
      else if v = "" then .error .missingValue
      else .ok { g with path := some v, pending := none }
  | some (.operand v) =>
      if sig.takesPath && v = "" then .error .missingValue
      else .ok { g with operand := some v, pending := none }

/-- Whether the operand was read. -/
def hasOperand (g : Gathered) : Bool :=
  match g.pending with
  | some (.operand _) => true
  | _ => g.operand.isSome

/-- The number of `verbose` switches is kept in a byte. -/
def verbosityLimit : Nat := 255

/-- Takes a switch that has no value with it. -/
def switch (sig : Signature) (g : Gathered) (s : Switch) : Except Interruption Gathered := do
  let g ← g.settle sig
  match s with
  | .help => throw .help
  | .version => throw .version
  | .verbose => return { g with verbosity := min (g.verbosity + 1) verbosityLimit }
  | .denyWarnings =>
      if g.denyWarnings then throw .repeated else return { g with denyWarnings := true }
  | .path => return { g with pending := some (.path none) }

/-- Takes the `path` switch with its value. -/
def pathValue (sig : Signature) (g : Gathered) (value : String) :
    Except Interruption Gathered := do
  let g ← g.settle sig
  settle sig { g with pending := some (.path (some value)) }

def long (sig : Signature) (g : Gathered) (name : String) (value : Option String) :
    Except Interruption Gathered :=
  match sig.switches.find? fun s => s.long = name, value with
  | none, _ => .error .unknownArgument
  | some s, none => g.switch sig s
  | some .path, some v => g.pathValue sig v
  | some _, some _ => .error .unwantedValue

/-- Takes letters that share a dash. What stands behind a `p` is its value. -/
def letters (sig : Signature) (g : Gathered) : List Char → Except Interruption Gathered
  | [] => .ok g
  | c :: r =>
      match sig.switches.find? fun s => s.letter? = some c with
      | none => .error .unknownArgument
      | some .path =>
          match r with
          | [] => g.switch sig .path
          | '=' :: v => g.pathValue sig (String.ofList v)
          | v => g.pathValue sig (String.ofList v)
      | some s => do letters sig (← g.switch sig s) r

/-- Takes an operand, for a command that has one. -/
def addOperand (sig : Signature) (g : Gathered) (s : String) : Except Interruption Gathered :=
  if g.hasOperand then .error .unknownArgument
  else do
    let g ← g.settle sig
    return { g with pending := some (.operand s) }

/-- Takes an argument without dashes. -/
def plain (sig : Signature) (g : Gathered) (s : String) : Except Interruption Gathered :=
  if g.pending = some (.path none) then .ok { g with pending := some (.path (some s)) }
  else g.addOperand sig s

/-- Takes the arguments of a command. -/
def readAll (sig : Signature) (g : Gathered) : List String → Except Interruption Gathered
  | [] => g.settle sig
  | a :: rest =>
      match ArgumentForm.of a with
      | .separator => do (← rest.foldlM (addOperand sig) g).settle sig
      | .long name value => do readAll sig (← g.long sig name value) rest
      | .letters cs => do readAll sig (← g.letters sig cs) rest
      | .plain => do readAll sig (← g.plain sig a) rest

end Gathered

namespace Invocation

def isCommand (s : String) : Bool := s = "init" || s = "check" || s = "help"

/-- The answer to `help` with some commands named behind it. -/
def helpOn : List String → Interruption
  | [] => .help
  | [c] => if isCommand c then .help else .unknownCommand
  | _ => .unknownCommand

/-- Reads a command that is named by `name`, with its arguments. -/
def readCommand (name : String) (args : List String) : Except Interruption Invocation :=
  if name = "init" then do
    let g ← Gathered.empty.readAll .init args
    match g.operand with
    | none => throw .missingOperand
    | some name => return ⟨g.verbosity, .init name (.ofText (g.path.getD name))⟩
  else if name = "check" then do
    let g ← Gathered.empty.readAll .check args
    return ⟨g.verbosity, .check (.ofText (g.operand.getD ".")) g.denyWarnings⟩
  else if name = "help" then .error (helpOn args)
  else .error .unknownCommand

/-- Why there is no command where the arguments end. -/
def withoutCommand (g : Gathered) : Interruption :=
  if g.verbosity = 0 then .nothingGiven else .missingCommand

/-- Reads arguments up to the command, and then the command. -/
def readFrom (g : Gathered) : List String → Except Interruption Invocation
  | [] => .error (withoutCommand g)
  | a :: rest =>
      match ArgumentForm.of a with
      | .separator =>
          match rest with
          | [] => .error (withoutCommand g)
          | b :: _ => .error (if isCommand b then .unknownArgument else .unknownCommand)
      | .long name value => do readFrom (← g.long .main name value) rest
      | .letters cs => do readFrom (← g.letters .main cs) rest
      | .plain => do
          let i ← readCommand a rest
          return if i.verbosity = 0 then { i with verbosity := g.verbosity } else i

/-- Reads all arguments of the program. -/
def ofArguments (args : List String) : Except Interruption Invocation :=
  readFrom .empty args

end Invocation

end MetaAttack
