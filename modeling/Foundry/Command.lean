import Foundry.Json.Printer
import Foundry.Module.Description
import Foundry.Request
import Foundry.Settings.Reader
import Foundry.Yaml.Node.Printer

/-!
# Commands

A `Command` makes one text, an artifact or a printed document, and puts it into a file or prints it.
Flags win over the settings of a configuration file.

A command is an `Action`, a row of steps on a file tree and on what is printed. A step that fails
does not take back the steps before it: a file that was opened stays open and empty. So the text is
complete before the output file is opened.
-/

namespace Foundry

open Parameter Yaml

/-- What a command makes. -/
inductive Task where
  | factory (inputs : List Path)
  | staticLoader (inputs : List Path)
  | dynamicLoader (inputs : List Path)
  | resolve (file : Path) (asModule : Bool)
  deriving DecidableEq

/-- A command; without an output file its text is printed. -/
structure Command where
  task : Task
  flags : Settings
  output : Option Path
  deriving DecidableEq

/-- Why a command fails. -/
inductive CommandError where
  | configuration (error : ConfigurationError)
  | request (error : RequestError)
  | unprintable (format : Format)
  | unwritable (path : Path) (fault : Fault)
  deriving DecidableEq

namespace CommandError

/-- What was being done when the command failed. -/
def message : CommandError → String
  | configuration error => error.message
  | request error => error.message
  | unprintable .yaml => "serializing YAML"
  | unprintable .json => "serializing JSON"
  | unwritable path _ => "creating output file: " ++ path.text

/-- The message of the error behind this one, if it is told. -/
def cause? : CommandError → Option String
  | configuration (.unreadable _ fault) => some fault.message
  | request (.descriptor error) => error.cause?
  | unwritable _ fault => some fault.message
  | _ => none

/-- The line that tells the error, with what caused it. -/
def report (e : CommandError) : String :=
  e.message ++ e.cause?.elim "" (": " ++ ·)

end CommandError

/-! ### Texts -/

/-- A value in a format. -/
def Format.print (f : Format) (n : Node) : Except CommandError String :=
  let text? := match f with
    | .yaml => n.print?
    | .json => Json.print? n
  match text? with
  | some text => .ok text
  | none => .error (.unprintable f)

/-- The document or the module that a file describes, as a value to print. -/
def FileTree.description (t : FileTree) (registry : Registry) (file : Path) (asModule : Bool) :
    Except DescriptorError Node :=
  if asModule then (Module.load t registry file).map Module.toNode
  else (t.resolve file).map withGenerics

namespace Settings

/-- The roots, empty where they are open. -/
def roots (s : Settings) : Roots :=
  ⟨s.sourceRoot.getD ⟨""⟩, s.buildRoot.getD ⟨""⟩⟩

end Settings

namespace Task

/-- The text that a task makes. -/
def text (t : FileTree) (settings : Settings) (task : Task) : Except CommandError String :=
  let generated (r : Request) := (r.generate t Registry.builtin).mapError CommandError.request
  let roots := settings.roots
  match task with
  | factory inputs => generated ⟨.factory, inputs, Settings.empty.roots⟩
  | staticLoader inputs => generated ⟨.staticLoader settings.moduleName, inputs, roots⟩
  | dynamicLoader inputs =>
    generated ⟨.dynamicLoader settings.moduleName settings.moduleVersion, inputs, roots⟩
  | resolve file asModule => do
    let node ← (t.description Registry.builtin file asModule).mapError
      (CommandError.request ∘ RequestError.descriptor)
    (settings.format.getD .yaml).print node

end Task

/-! ### Running -/

/-- What a command leaves behind: the file tree and what was printed. -/
structure Outcome where
  tree : FileTree
  printed : String

/-- Steps that change what is left behind and may fail. What was done before a failure stays. -/
abbrev Action (α : Type) : Type := ExceptT CommandError (StateM Outcome) α

namespace Action

/-- Looks into the file tree. -/
def ask {α : Type} (question : FileTree → Except CommandError α) : Action α :=
  fun o => (question o.tree, o)

/-- Opens a file for writing: it is made, or emptied if it is there. -/
def openFile (p : Path) : Action Location := fun o =>
  match o.tree.target p with
  | .ok here => (.ok here, { o with tree := o.tree.put here (.file .empty) })
  | .error fault => (.error (.unwritable p fault), o)

/-- Fills a file that was opened. -/
def fill (here : Location) (text : String) : Action Unit := fun o =>
  (.ok (), { o with tree := o.tree.put here (.file text.toUTF8) })

/-- Prints a text. -/
def print (text : String) : Action Unit := fun o =>
  (.ok (), { o with printed := o.printed ++ text })

/-- Puts a text into a file, or prints it. -/
def deliver (output : Option Path) (text : String) : Action Unit :=
  match output with
  | none => print text
  | some p => do fill (← openFile p) text

/-- Takes the steps on a file tree, with nothing printed before. -/
def perform {α : Type} (a : Action α) (t : FileTree) : Except CommandError α × Outcome :=
  a ⟨t, ""⟩

end Action

namespace Command

/-- The steps of a command under the settings of a configuration file. -/
def action (configured : Settings) (c : Command) : Action Unit := do
  let text ← Action.ask fun t => c.task.text t (c.flags.orElse configured)
  Action.deliver c.output text

/-- Runs a command under the settings of a configuration file. -/
def run (t : FileTree) (configured : Settings) (c : Command) : Except CommandError Outcome :=
  match (c.action configured).perform t with
  | (.ok (), o) => .ok o
  | (.error e, _) => .error e

end Command

end Foundry
