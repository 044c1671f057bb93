import MetaAttack.CommandLine.Arguments
import MetaAttack.CommandLine.Scaffold
import MetaAttack.CommandLine.Verdict

/-!
# Running commands
-/

namespace MetaAttack

/-- What a command has done. -/
structure Outcome where
  tree : FileTree
  output : String
  result : Except CommandError Unit

/-- Runs a command on a file tree. -/
def Command.run (t : FileTree) : Command → Outcome
  | .init name dir =>
      let s : Scaffold := ⟨name, dir⟩
      match s.build t with
      | (t, .error e) => ⟨t, "", .error e⟩
      | (t, .ok ()) => ⟨t, s.summary, .ok ()⟩
  | .check path denyWarnings =>
      match Project.ofPath t path with
      | .error e => ⟨t, "", .error (.load e)⟩
      | .ok p => ⟨t, p.report denyWarnings, p.verdict denyWarnings⟩

/-- The exit code of a command. -/
def Outcome.exitCode (o : Outcome) : Nat :=
  match o.result with
  | .ok () => 0
  | .error _ => 1

end MetaAttack
