import Foundry.Artifact.Lines
import Foundry.Module

/-!
# Loaders

A `Loader` registers the factories of many modules, each with the manager of the module's kind. It
includes their generated headers and is packed as a plain function, or as a shared object with the
entry points of the runtime.

The header of a descriptor is generated at the descriptor's own path with `.h` behind it, moved from
the source root to the build root; a descriptor outside the source root keeps its path.
-/

namespace Foundry

/-- The directories that descriptors stand under and that their headers are generated under. -/
structure Roots where
  source : Path
  build : Path
  deriving DecidableEq

/-- The generated header of a descriptor. -/
def Roots.header (roots : Roots) (descriptor : Path) : String :=
  let moved := match Path.stripStart? roots.source descriptor with
    | some relative => roots.build.join relative
    | none => descriptor
  moved.text ++ ".h"

/-- The accessor of the manager that modules of a kind are registered with. -/
def Kind.manager (k : Kind) : String :=
  "get_" ++ k.key ++ "_manager"

namespace Artifact

/-- The registration of a factory with a manager. -/
structure Registration where
  manager : String
  factory : String
  deriving DecidableEq

namespace Registration

/-- The registration of a module's factory. -/
def ofModule (m : Module) : Registration :=
  ⟨m.role.kind.manager, m.factoryName⟩

/-- The registration in C++. -/
def text (r : Registration) : String :=
  "config." ++ r.manager ++ "().register_factory(std::make_shared<autogen::" ++ r.factory ++
    ">(config));"

end Registration

/-- How a loader is packed; its names start with `stem`. -/
inductive Packaging where
  | linked (stem : String)
  | loadable (stem name version : String)
  deriving DecidableEq

/-- A loader. -/
structure Loader where
  headers : List String
  registrations : List Registration
  packaging : Packaging

namespace Loader

/-- The loader of modules, in their order. -/
def ofModules (modules : List Module) (roots : Roots) (packaging : Packaging) : Loader where
  headers := modules.map fun m => roots.header m.source
  registrations := modules.map Registration.ofModule
  packaging := packaging

/-- The lines that register the factories. -/
def registrationLines (l : Loader) : List String :=
  l.registrations.map fun r => indented 1 r.text

/-- The lines of a plain registration function. -/
def linkedLines (registrations : List String) (stem : String) : List String :=
  ["void " ++ stem ++ "_static_load(ConfigManager &config)", "\x7b"] ++ registrations ++ ["\x7d"]

/-- The lines of a shared object: a registration function in a namespace of its own, a record that
names the module, and the entry points of the runtime. -/
def loadableLines (registrations : List String) (stem name version : String) : List String :=
  let space := stem ++ "_autogen"
  ["namespace " ++ space ++ " \x7b", "",
   "static bool loaded = false;", "",
   "static void load(ConfigManager &config)", "\x7b"] ++
  registrations ++
  ["\x7d", "",
   "\x7d /* namespace " ++ space ++ " */", "",
   "extern \"C\" \x7b", "",
   "static const RabbitsDynamicInfo " ++ stem ++ "_dyn_info = \x7b",
   indented 1 (".name = \"" ++ name ++ "\","),
   indented 1 (".version_str = \"" ++ version ++ "\","),
   "\x7d;", "",
   "int rabbits_dynamic_api_version(void)",
   "\x7b",
   indented 1 "return RABBITS_API_VERSION;",
   "\x7d", "",
   "const RabbitsDynamicInfo * rabbits_dynamic_info(void)",
   "\x7b",
   indented 1 ("return &" ++ stem ++ "_dyn_info;"),
   "\x7d", "",
   "void rabbits_dynamic_load(ConfigManager &config)",
   "\x7b",
   indented 1 ("if (!" ++ space ++ "::loaded) \x7b"),
   indented 2 (space ++ "::load(config);"),
   indented 2 (space ++ "::loaded = true;"),
   indented 1 "\x7d",
   "\x7d", "",
   "void rabbits_dynamic_unload(void)",
   "\x7b",
   indented 1 (space ++ "::loaded = false;"),
   "\x7d", "",
   "\x7d /* extern \"C\" */"]

/-- The headers of the framework that a packaging needs. -/
def frameworkHeaders : Packaging → List String
  | .linked _ => ["rabbits/config/manager.h"]
  | .loadable .. => ["rabbits/config/manager.h", "rabbits/dynloader/dynloader.h"]

/-- The lines of the loader. -/
def lines (l : Loader) : List String :=
  [banner, "", systemIncludeLine "memory", ""] ++
  (frameworkHeaders l.packaging).map systemIncludeLine ++
  [""] ++
  l.headers.map includeLine ++
  [""] ++
  match l.packaging with
  | .linked stem => linkedLines l.registrationLines stem
  | .loadable stem name version => loadableLines l.registrationLines stem name version

/-- The text of the loader. -/
def text (l : Loader) : String :=
  textOfLines l.lines

end Loader

end Foundry.Artifact
