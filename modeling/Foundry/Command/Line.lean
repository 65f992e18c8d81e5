import Foundry.Command

/-!
# Command lines

The arguments of the program, read into an `Invocation`. An argument is `--`, a long option, a
cluster of short options or a plain word. Options take a value from the rest of their own argument
or from the next one, which has to be plain. Behind `--` every argument is a word.

Two options stand before or behind the name of the command; the others belong to some commands only.
An option that takes a value is given at most once, and paths are not empty. What a command line
breaks of this is not told: it is just `Stop.usage`.
-/

namespace Foundry.Command.Line

/-! ### Options and commands -/

/-- The names of commands. -/
inductive Verb where
  | factory
  | staticLoader
  | dynamicLoader
  | resolve
  deriving DecidableEq

namespace Verb

/-- Every command. -/
def all : List Verb := [factory, staticLoader, dynamicLoader, resolve]

/-- The name on the command line. -/
def name : Verb → String
  | factory => (Mode.factory).name
  | staticLoader => (Mode.staticLoader none).name
  | dynamicLoader => (Mode.dynamicLoader none none).name
  | resolve => "resolve"

/-- Whether the command works on one file only; a factory's request counts its own. -/
def takesOneFile (v : Verb) : Bool :=
  v == resolve

/-- The command with a name. -/
def ofName? (name : String) : Option Verb :=
  all.find? fun v => v.name == name

end Verb

/-- The options. -/
inductive Flag where
  | verbose
  | configuration
  | help
  | version
  | output
  | sourceRoot
  | buildRoot
  | moduleName
  | moduleVersion
  | format
  | asModule
  deriving DecidableEq

namespace Flag

/-- The long name of an option. -/
def long : Flag → String
  | verbose => "verbose"
  | configuration => "config"
  | help => "help"
  | version => "version"
  | output => "output"
  | sourceRoot => "source-dir"
  | buildRoot => "build-dir"
  | moduleName => "module-name"
  | moduleVersion => "module-version"
  | format => "format"
  | asModule => "model"

/-- The short name of an option. -/
def short? : Flag → Option Char
  | verbose => some 'v'
  | help => some 'h'
  | version | moduleVersion => some 'V'
  | output => some 'o'
  | sourceRoot => some 's'
  | buildRoot => some 'b'
  | moduleName => some 'm'
  | configuration | format | asModule => none

/-- Whether an option takes a value. -/
def takesValue : Flag → Bool
  | verbose | help | version | asModule => false
  | _ => true

/-- The options that stand anywhere. -/
def anywhere : List Flag := [verbose, configuration, help]

/-- The options before the name of the command, or of a command. -/
def declared : Option Verb → List Flag
  | none => anywhere ++ [version]
  | some .factory => anywhere ++ [output]
  | some .staticLoader => anywhere ++ [output, sourceRoot, buildRoot, moduleName]
  | some .dynamicLoader => anywhere ++ [output, sourceRoot, buildRoot, moduleName, moduleVersion]
  | some .resolve => anywhere ++ [output, format, asModule]

end Flag

/-! ### Arguments -/

/-- The forms of arguments. -/
inductive Word where
  | separator
  | long (name : List Char) (value : Option (List Char))
  | cluster (letters : List Char)
  | plain

/-- The text up to the first `=`, and what is behind it. -/
def splitValue : List Char → List Char × Option (List Char)
  | [] => ([], none)
  | c :: r =>
    if c = '=' then ([], some r)
    else
      let (name, value) := splitValue r
      (c :: name, value)

/-- The form of an argument. -/
def Word.of (s : String) : Word :=
  match s.toList with
  | ['-', '-'] => separator
  | '-' :: '-' :: r =>
    let (name, value) := splitValue r
    long name value
  | ['-'] => plain
  | '-' :: r => cluster r
  | _ => plain

/-- What ends the reading of a command line before there is a command. -/
inductive Stop where
  | usage
  | help
  | version
  deriving DecidableEq

/-- What the arguments have said so far. -/
structure Arguments where
  configuration : Option Path
  flags : Settings
  output : Option Path
  asModule : Bool
  files : List Path

namespace Arguments

/-- Nothing said. -/
def none : Arguments := ⟨.none, .empty, .none, false, []⟩

/-- A value that may be given once. -/
def once {α : Type} (old : Option α) (new : α) : Except Stop (Option α) :=
  if old.isSome then .error .usage else .ok (some new)

/-- A path, which is not empty. -/
def path (value : String) : Except Stop Path :=
  if value.isEmpty then .error .usage else .ok ⟨value⟩

/-- Takes an option without a value. -/
def mark (a : Arguments) : Flag → Except Stop Arguments
  | .verbose => .ok a
  | .help => .error .help
  | .version => .error .version
  | .asModule => if a.asModule then .error .usage else .ok { a with asModule := true }
  | _ => .error .usage

/-- Takes an option with its value. -/
def set (a : Arguments) (flag : Flag) (value : String) : Except Stop Arguments :=
  let s := a.flags
  match flag with
  | .configuration => do
    pure { a with configuration := ← once a.configuration (← path value) }
  | .output => do pure { a with output := ← once a.output (← path value) }
  | .sourceRoot => do
    pure { a with flags := { s with sourceRoot := ← once s.sourceRoot (← path value) } }
  | .buildRoot => do
    pure { a with flags := { s with buildRoot := ← once s.buildRoot (← path value) } }
  | .moduleName => do
    pure { a with flags := { s with moduleName := ← once s.moduleName value } }
  | .moduleVersion => do
    pure { a with flags := { s with moduleVersion := ← once s.moduleVersion value } }
  | .format =>
    match Format.ofName? value with
    | some f => do pure { a with flags := { s with format := ← once s.format f } }
    | .none => .error .usage
  | _ => .error .usage

/-- Takes a file, if the command still takes one. -/
def addFile (verb : Verb) (a : Arguments) (value : String) : Except Stop Arguments :=
  if verb.takesOneFile ∧ a.files ≠ [] then .error .usage
  else do pure { a with files := a.files ++ [← path value] }

/-- Takes a cluster of short options; the last one may still want its value. -/
def takeCluster (declared : List Flag) :
    Arguments → List Char → Except Stop (Arguments × Option Flag)
  | a, [] => .ok (a, .none)
  | a, c :: r =>
    match declared.find? fun f => f.short? == some c with
    | .none => .error .usage
    | some flag =>
      if flag.takesValue then
        match r with
        | [] => .ok (a, some flag)
        | '=' :: value => (a.set flag (String.ofList value)).map (·, .none)
        | value => (a.set flag (String.ofList value)).map (·, .none)
      else (a.mark flag).bind fun a => takeCluster declared a r

/-- Takes a long option, which may still want its value. -/
def takeLong (declared : List Flag) (a : Arguments) (name : List Char)
    (value : Option (List Char)) : Except Stop (Arguments × Option Flag) :=
  match declared.find? fun f => f.long.toList == name with
  | .none => .error .usage
  | some flag =>
    match flag.takesValue, value with
    | true, some value => (a.set flag (String.ofList value)).map (·, .none)
    | true, .none => .ok (a, some flag)
    | false, .none => (a.mark flag).map (·, .none)
    | false, some _ => .error .usage

/-- Takes an argument that is an option; the option may still want its value. -/
def takeOption (declared : List Flag) (a : Arguments) :
    Word → Except Stop (Arguments × Option Flag)
  | .cluster letters => takeCluster declared a letters
  | .long name value => takeLong declared a name value
  | _ => .error .usage

/-- Takes the next argument as the value that an option wants. -/
def setNext (a : Arguments) (flag : Flag) (value : String) : Except Stop Arguments :=
  match Word.of value with
  | .plain => a.set flag value
  | _ => .error .usage

end Arguments

/-! ### Reading -/

/-- Reads the arguments behind the name of a command; `wanting` is the option that wants a value. -/
def readCommand (verb : Verb) :
    Arguments → (wanting : Option Flag) → List String → Except Stop Arguments
  | a, none, [] => .ok a
  | _, some _, [] => .error .usage
  | a, some flag, s :: rest => do readCommand verb (← a.setNext flag s) none rest
  | a, none, s :: rest =>
    match Word.of s with
    | .separator => rest.foldlM (Arguments.addFile verb) a
    | .plain => do readCommand verb (← a.addFile verb s) none rest
    | word => do
      let (a, wanting) ← a.takeOption (Flag.declared (some verb)) word
      readCommand verb a wanting rest

/-- Whether arguments ask for help on something that there is help on. -/
def isHelpTopic : List String → Bool
  | [] => true
  | [topic] => (Verb.ofName? topic).isSome || topic == "help"
  | _ => false

/-- Reads the arguments up to the name of the command. -/
def readTop : Arguments → (wanting : Option Flag) → List String →
    Except Stop (Arguments × Verb × List String)
  | _, _, [] => .error .usage
  | a, some flag, s :: rest => do readTop (← a.setNext flag s) none rest
  | a, none, s :: rest =>
    match Word.of s with
    | .separator => .error .usage
    | .plain =>
      match Verb.ofName? s with
      | some verb => .ok (a, verb, rest)
      | none => .error (if s = "help" ∧ isHelpTopic rest then .help else .usage)
    | word => do
      let (a, wanting) ← a.takeOption (Flag.declared none) word
      readTop a wanting rest

/-- A command, and the configuration file that was named. -/
structure Invocation where
  configuration : Option Path
  command : Command
  deriving DecidableEq

/-- The task that a command name and its files stand for. -/
def task? (verb : Verb) (a : Arguments) : Option Task :=
  match verb, a.files with
  | _, [] => none
  | .factory, files => some (.factory files)
  | .staticLoader, files => some (.staticLoader files)
  | .dynamicLoader, files => some (.dynamicLoader files)
  | .resolve, [file] => some (.resolve file a.asModule)
  | .resolve, _ => none

/-- Reads a command line. -/
def read (arguments : List String) : Except Stop Invocation := do
  let (top, verb, rest) ← readTop .none none arguments
  let a ← readCommand verb .none none rest
  match task? verb a with
  | some task => .ok ⟨a.configuration.or top.configuration, ⟨task, a.flags, a.output⟩⟩
  | none => .error .usage

end Foundry.Command.Line
