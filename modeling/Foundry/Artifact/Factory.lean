import Foundry.Artifact.Lines
import Foundry.Module

/-!
# Factory headers

A `Factory` is the header that declares one module's factory class: its base is the factory template
of the module's kind, and its constructor adds the module's parameters one by one. Where the module
tells how it is discovered, the class overrides `discover`.
-/

namespace Foundry.Artifact

/-- A statement of the constructor: it adds a parameter. -/
structure ParameterStatement where
  name : String
  ccType : String
  description : String
  default : String
  advanced : Bool

/-- The statement in C++. -/
def ParameterStatement.text (s : ParameterStatement) : String :=
  "add_param(\"" ++ s.name ++ "\", Parameter<" ++ s.ccType ++ ">(\"" ++ s.description ++ "\", " ++
    s.default ++ ", " ++ (if s.advanced then "true" else "false") ++ "));"

/-- The statement that adds a declared parameter. -/
def ParameterStatement.ofDeclaration (d : Declaration) : ParameterStatement :=
  ⟨d.name, d.ccType, d.description, d.default, d.advanced⟩

/-- A factory header. `arguments` are those of the base's constructor behind the configuration. -/
structure Factory where
  frameworkHeader : String
  classHeaders : List String
  name : String
  base : String
  className : String
  arguments : List String
  parameters : List ParameterStatement
  discover : Option String

end Artifact

/-- The header that declares the factory template of a kind. -/
def Kind.frameworkHeader (k : Kind) : String :=
  "rabbits/" ++ k.key ++ "/factory.h"

/-- The factory template of a kind. -/
def Kind.factoryBase : Kind → String
  | component => "ComponentFactory"
  | plugin => "PluginFactory"
  | backend => "BackendFactory"

namespace Artifact

/-- The path of a header that a descriptor names: it starts from the descriptor's directory. -/
def classHeader (descriptor : Path) (header : String) : String :=
  (descriptor.directory.join ⟨header⟩).text

/-- A text as a C++ string literal; what needs an escape has one already. -/
def quoted (text : String) : String := "\"" ++ text ++ "\""

/-- The arguments that only the factories of one kind of module take. -/
def roleArguments : Role → List String
  | .component implementation priority => [quoted implementation, toString priority]
  | _ => []

namespace Factory

/-- The factory of a module. -/
def ofModule (m : Module) : Factory where
  frameworkHeader := m.role.kind.frameworkHeader
  classHeaders := m.includes.map (classHeader m.source)
  name := m.factoryName
  base := m.role.kind.factoryBase
  className := m.className
  arguments := [quoted m.identifier, quoted m.description] ++ roleArguments m.role
  parameters := m.parameters.map ParameterStatement.ofDeclaration
  discover := m.discover

/-- The base class: the factory template applied to the module's class. -/
def baseClass (f : Factory) : String :=
  f.base ++ "<" ++ f.className ++ ">"

/-- The lines of the constructor's body. -/
def constructorBody (f : Factory) : List String :=
  f.parameters.map fun p => indented 2 p.text

/-- The lines of the constructor. -/
def constructorLines (f : Factory) : List String :=
  [indented 1 (f.name ++ "(ConfigManager &config)"),
   indented 2 (": " ++ f.baseClass ++ "(" ++ ", ".intercalate ("config" :: f.arguments) ++ ")"),
   indented 1 "\x7b"] ++
  f.constructorBody ++
  [indented 1 "\x7d"]

/-- The lines of the `discover` method with a statement as its body. -/
def discoverLines (statement : String) : List String :=
  ["",
   indented 1
     "virtual void discover(const std::string &name, const PlatformDescription &params)",
   indented 1 "\x7b",
   indented 2 "Parameters cp = get_params();",
   indented 2 "cp.fill_from_description(params);",
   "",
   indented 2 (statement ++ ";"),
   indented 1 "\x7d"]

/-- The lines of the header. -/
def lines (f : Factory) : List String :=
  [banner, "", systemIncludeLine f.frameworkHeader] ++
  f.classHeaders.map includeLine ++
  ["", "namespace autogen \x7b", "",
   "class " ++ f.name ++ " : public " ++ f.baseClass ++ " \x7b", "public:"] ++
  f.constructorLines ++
  ["", indented 1 ("virtual ~" ++ f.name ++ "() \x7b\x7d")] ++
  f.discover.elim [] discoverLines ++
  ["\x7d;", "", "\x7d /* namespace autogen */"]

/-- The text of the header. -/
def text (f : Factory) : String :=
  textOfLines f.lines

end Factory

end Foundry.Artifact
