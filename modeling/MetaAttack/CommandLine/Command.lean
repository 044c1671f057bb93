import MetaAttack.Files.Path

/-!
# Commands
-/

namespace MetaAttack

/-- What the program can be asked to do. -/
inductive Command
  /-- Set up a new project in a directory. -/
  | init (name : String) (dir : Path)
  /-- Check a file, or the project that a directory belongs to. -/
  | check (path : Path) (denyWarnings : Bool)
deriving DecidableEq, Repr

/-- A command, and how much is to be logged on the way. -/
structure Invocation where
  verbosity : Nat
  command : Command
deriving DecidableEq, Repr

/-- Why arguments do not lead to a command. -/
inductive Interruption
  | help
  | version
  | nothingGiven
  | missingCommand
  | unknownCommand
  /-- An argument that the command does not take, or one operand too many. -/
  | unknownArgument
  | missingOperand
  /-- An option without its value, or a path without any text. -/
  | missingValue
  /-- A value for an option that takes none. -/
  | unwantedValue
  | repeated
deriving DecidableEq, Repr

namespace Interruption

/-- Help and the version were asked for; all else is an error. -/
def exitCode : Interruption → Nat
  | help | version => 0
  | _ => 2

def usage : String :=
  "Usage: malcheck [-v] init [-p <PATH>] <NAME>\n" ++
    "       malcheck [-v] check [--deny-warnings] [PATH]"

def message : Interruption → String
  | help | nothingGiven => usage
  | version => "malcheck 0.1.0"
  | missingCommand => s!"error: a command is required\n\n{usage}"
  | unknownCommand => s!"error: there is no such command\n\n{usage}"
  | unknownArgument => s!"error: unexpected argument\n\n{usage}"
  | missingOperand => s!"error: a required argument was not provided\n\n{usage}"
  | missingValue => s!"error: a value is required\n\n{usage}"
  | unwantedValue => s!"error: unexpected value\n\n{usage}"
  | repeated => s!"error: an argument cannot be used multiple times\n\n{usage}"

end Interruption

end MetaAttack
