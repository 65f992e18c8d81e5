import Foundry.Descriptor.Kind
import Foundry.FileTree
import Foundry.Parameter.Error

/-!
# Descriptor errors

Why a descriptor file is refused, from its text to the last of its parameters. Every error names the
file, by the path that led to it; only a cycle of includes is told by canonical paths.
-/

namespace Foundry

open Parameter

/-- A directive that does not name files. -/
inductive DirectiveFault where
  | nestedSequence
  | nestedMapping
  | entryWithoutText
  | mapping
  | withoutText
  deriving DecidableEq

/-- Keys that do not declare one kind. -/
inductive KindFault where
  | notAMapping
  | noKind (keys : List String)
  | severalKinds (kinds : List Kind)
  | kindNotAMapping (kind : Kind)
  deriving DecidableEq

/-- Where attributes are looked for. -/
inductive Place where
  | module (kind : Kind)
  | parameter (name : String)
  deriving DecidableEq

/-- What an attribute should have been. -/
inductive AttributeFault where
  | notText
  | notTexts
  | notTextOrTexts
  | notAnInteger
  | notAMapping
  | notAParameter
  | nameNotScalar
  deriving DecidableEq

/-- Why a descriptor is refused. -/
inductive DescriptorError where
  | unreadable (path : Path) (fault : Fault)
  | malformed (path : Path)
  | invalidDirective (path : Path) (fault : DirectiveFault)
  | includeCycle (chain : List Path)
  | invalidKind (path : Path) (fault : KindFault)
  | missingAttributes (path : Path) (place : Place) (names : List String)
  | invalidAttribute (path : Path) (place : Place) (name : String) (fault : AttributeFault)
  | invalidParameter (path : Path) (name : String) (cause : ConversionError)
  deriving DecidableEq

/-! ### Wording -/

def DirectiveFault.message : DirectiveFault → String
  | .nestedSequence => "a nested sequence"
  | .nestedMapping => "a mapping inside the list"
  | .entryWithoutText => "a non-scalar entry"
  | .mapping => "a mapping"
  | .withoutText => "an unsupported value"

def KindFault.message : KindFault → String
  | .notAMapping => "document is not a mapping"
  | .noKind keys =>
    "expected one of component, plugin or backend, found [" ++ ", ".intercalate keys ++ "]"
  | .severalKinds kinds =>
    "declares several module kinds: " ++ ", ".intercalate (kinds.map Kind.key)
  | .kindNotAMapping kind => "`" ++ kind.key ++ "' must be a mapping"

def Place.text : Place → String
  | .module kind => kind.key
  | .parameter name => "parameter `" ++ name ++ "'"

def AttributeFault.message : AttributeFault → String
  | .notText => "expected a string"
  | .notTexts => "expected a list of strings"
  | .notTextOrTexts => "expected a string or a list of strings"
  | .notAnInteger => "expected an integer"
  | .notAMapping => "expected a mapping"
  | .notAParameter => "expected a mapping with type, default and description"
  | .nameNotScalar => "parameter names must be scalars"

namespace DescriptorError

def message : DescriptorError → String
  | unreadable path fault =>
    "cannot read descriptor '" ++ path.text ++ "': " ++ fault.message
  | malformed path => "invalid YAML in '" ++ path.text ++ "'"
  | invalidDirective path fault =>
    "invalid include directive in '" ++ path.text ++
      "': expected a path or a list of paths, found " ++ fault.message
  | includeCycle chain => "include cycle: " ++ " -> ".intercalate (chain.map Path.text)
  | invalidKind path fault =>
    "invalid description file '" ++ path.text ++ "': " ++ fault.message
  | missingAttributes path place names =>
    "missing attribute(s): " ++ ",".intercalate names ++ " for " ++ place.text ++
      " in '" ++ path.text ++ "'"
  | invalidAttribute path place name fault =>
    "invalid attribute `" ++ name ++ "' for " ++ place.text ++
      " in '" ++ path.text ++ "': " ++ fault.message
  | invalidParameter path name cause =>
    "parameter `" ++ name ++ "' in '" ++ path.text ++ "': " ++ cause.message

/-- The message of the error that caused this one, if another one did. -/
def cause? : DescriptorError → Option String
  | unreadable _ fault => some fault.message
  | invalidParameter _ _ cause => some cause.message
  | _ => none

end DescriptorError

end Foundry
