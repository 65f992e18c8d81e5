import Foundry.Artifact.Factory
import Foundry.Artifact.Loader
import Foundry.Module.Reader

/-!
# Requests

A `Request` asks for one artifact from descriptor files: a factory header from exactly one of them,
or a loader over one or more. Its shape is checked before any file is read, and what is left is a
`Plan`. Module names and versions that are empty count as not given; only a loadable loader needs
them.

* `plan_nil`: without inputs there is nothing to do, in every mode.
-/

namespace Foundry

open Artifact Parameter

/-- The artifact that is asked for. -/
inductive Mode where
  | factory
  | staticLoader (moduleName : Option String)
  | dynamicLoader (moduleName moduleVersion : Option String)
  deriving DecidableEq

/-- The name of the mode, on the command line and in messages. -/
def Mode.name : Mode → String
  | factory => "factory"
  | staticLoader _ => "static-loader"
  | dynamicLoader .. => "dyn-loader"

/-- What a loadable loader has to be told. -/
inductive LoaderFact where
  | name
  | version
  deriving DecidableEq

/-- Why there is no artifact: the shape of the request, or a descriptor. -/
inductive RequestError where
  | noInputs
  | tooManyInputs (count : Nat)
  | missing (fact : LoaderFact)
  | descriptor (error : DescriptorError)
  deriving DecidableEq

def LoaderFact.word : LoaderFact → String
  | name => "name"
  | version => "version"

def RequestError.message : RequestError → String
  | noInputs => "no descriptor files given"
  | tooManyInputs count =>
    "factory mode takes exactly one descriptor, got " ++ toString count
  | missing fact => "dynamic loader requires a module " ++ fact.word
  | descriptor error => error.message

/-- A request for an artifact. -/
structure Request where
  mode : Mode
  inputs : List Path
  roots : Roots

/-- What a well-formed request comes down to. -/
inductive Plan where
  | factory (input : Path)
  | loader (inputs : List Path) (packaging : Packaging)

/-- The module name of a static loader that is not given one. -/
def defaultModuleName : String := "rabbits"

/-- A text that was given and is not empty. -/
def given? (s : Option String) : Option String :=
  s.filter fun s => !s.isEmpty

/-- A fact that a loadable loader cannot do without. -/
def demand (fact : LoaderFact) (s : Option String) : Except RequestError String :=
  match given? s with
  | some s => .ok s
  | none => .error (.missing fact)

namespace Request

/-- Checks the shape of a request. -/
def plan (r : Request) : Except RequestError Plan :=
  match r.inputs, r.mode with
  | [], _ => .error .noInputs
  | [input], .factory => .ok (.factory input)
  | inputs, .factory => .error (.tooManyInputs inputs.length)
  | inputs, .staticLoader moduleName =>
    .ok (.loader inputs (.linked (identifierStem ((given? moduleName).getD defaultModuleName))))
  | inputs, .dynamicLoader moduleName moduleVersion => do
    let name ← demand .name moduleName
    let version ← demand .version moduleVersion
    .ok (.loader inputs (.loadable (identifierStem name) name version))

end Request

/-- The module that a file describes, or why the request fails. -/
def FileTree.loadModule (tree : FileTree) (registry : Registry) (input : Path) :
    Except RequestError Module :=
  (Module.load tree registry input).mapError .descriptor

/-- The modules that files describe, in order, or the first failure. -/
def FileTree.loadModules (tree : FileTree) (registry : Registry) (inputs : List Path) :
    Except RequestError (List Module) :=
  inputs.mapM (tree.loadModule registry)

/-- The text of the artifact that a request asks for. -/
def Request.generate (tree : FileTree) (registry : Registry) (r : Request) :
    Except RequestError String := do
  match ← r.plan with
  | .factory input => pure (Factory.ofModule (← tree.loadModule registry input)).text
  | .loader inputs packaging =>
    pure (Loader.ofModules (← tree.loadModules registry inputs) r.roots packaging).text

theorem Request.plan_nil (mode : Mode) (roots : Roots) :
    (Request.mk mode [] roots).plan = .error .noInputs := by
  cases mode <;> rfl

end Foundry
