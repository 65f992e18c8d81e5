import Foundry.Descriptor.Error
import Foundry.Identifier
import Foundry.Yaml.Node

/-!
# Modules

What a descriptor describes, once it is known to be complete: a component, a plugin or a backend
with its class, its headers and its parameters. Only a component has an implementation name and a
priority, and a plugin is never discovered.
-/

namespace Foundry

open Yaml

/-- A parameter of a module, with its default as a C++ literal. -/
structure Declaration where
  name : String
  typeName : String
  ccType : String
  rawDefault : Node
  default : String
  description : String
  advanced : Bool

/-- The kind of a module, with the attributes that only this kind has. -/
inductive Role where
  | component (implementation : String) (priority : Int)
  | plugin
  | backend
  deriving DecidableEq

/-- The kind alone. -/
def Role.kind : Role → Kind
  | component .. => .component
  | plugin => .plugin
  | backend => .backend

/-- A module; the descriptions are on one line. -/
structure Module where
  source : Path
  identifier : String
  description : String
  className : String
  includes : List String
  discover : Option String
  parameters : List Declaration
  role : Role

namespace Module

/-- The name of the module's factory class. -/
def factoryName (m : Module) : String :=
  Foundry.factoryName m.identifier

/-- The parameter with a name; the first one, if there are several. -/
def parameter? (m : Module) (name : String) : Option Declaration :=
  m.parameters.find? fun d => d.name == name

end Module

end Foundry
