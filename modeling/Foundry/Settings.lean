import Foundry.Path

/-!
# Settings

What a command may be told beside the files it works on: the roots, the name and version of a
loadable module, and the format of printed documents. Flags and configuration files give settings of
the same form, and `flags.orElse configured` lets the flags win one by one.

* `orElse_empty`: settings that say nothing change nothing.
-/

namespace Foundry

/-- The format of a printed document. -/
inductive Format where
  | yaml
  | json
  deriving DecidableEq

namespace Format

/-- Every format. -/
def all : List Format := [yaml, json]

/-- The name of the format, in configuration files and on the command line. -/
def name : Format → String
  | yaml => "yaml"
  | json => "json"

/-- The format with a name. -/
def ofName? (name : String) : Option Format :=
  all.find? fun f => f.name == name

theorem ofName?_name (f : Format) : ofName? f.name = some f := by
  cases f <;> rfl

end Format

/-- Settings; each of them may be left open. -/
structure Settings where
  sourceRoot : Option Path
  buildRoot : Option Path
  moduleName : Option String
  moduleVersion : Option String
  format : Option Format
  deriving DecidableEq

namespace Settings

/-- Settings that leave everything open. -/
def empty : Settings := ⟨none, none, none, none, none⟩

/-- Settings with those that they leave open taken from others. -/
def orElse (s t : Settings) : Settings where
  sourceRoot := s.sourceRoot.or t.sourceRoot
  buildRoot := s.buildRoot.or t.buildRoot
  moduleName := s.moduleName.or t.moduleName
  moduleVersion := s.moduleVersion.or t.moduleVersion
  format := s.format.or t.format

@[simp]
theorem orElse_empty (s : Settings) : s.orElse empty = s := by
  simp [orElse, empty]

end Settings

end Foundry
