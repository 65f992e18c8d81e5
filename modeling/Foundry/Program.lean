import Foundry.Command.Line

/-!
# The program

`Program.run` is a run of the program as a function: from a file tree and a command line to an
`Exit`. The configuration file is read before the command runs, and a command line that cannot be
read does nothing at all.
-/

namespace Foundry.Program

open Command

/-- How a run ends: its code, what was printed, the error line, and the file tree. The usage and the
help are texts of the command-line library and no part of what is printed. -/
structure Exit where
  code : Nat
  printed : String
  report : Option String
  tree : FileTree

/-- The text that tells the version. -/
def versionText : String := "facgen 0.1.0\n"

/-- The settings of the configuration file of an invocation. -/
def configure (i : Line.Invocation) (t : FileTree) : Except CommandError Settings :=
  (t.configuration i.configuration (FileTree.pathOf t.workingDirectory)).mapError
    CommandError.configuration

/-- The steps of an invocation: the configuration file is read, then the command follows. -/
def invoke (i : Line.Invocation) : Action Unit := do
  i.command.action (← Action.ask (configure i))

/-- A run of the program. -/
def run (t : FileTree) (arguments : List String) : Exit :=
  match Line.read arguments with
  | .error .usage => ⟨2, "", none, t⟩
  | .error .help => ⟨0, "", none, t⟩
  | .error .version => ⟨0, versionText, none, t⟩
  | .ok i =>
    match (invoke i).perform t with
    | (.ok (), o) => ⟨0, o.printed, none, o.tree⟩
    | (.error e, o) => ⟨1, o.printed, some e.report, o.tree⟩

end Foundry.Program
