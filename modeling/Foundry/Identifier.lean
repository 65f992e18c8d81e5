/-!
# Names in generated code

Module identifiers are free text; what is generated from them is C++.

* `factoryName` names the factory class of a module: every `-` becomes `_`.
* `identifierStem` starts the names of a loader: every `-` and every `.` becomes `_`.
* `escapeBreaks` writes the line breaks of a description as `\n`.
-/

namespace Foundry

/-- A text with each of some characters replaced by `_`. -/
def underscored (replaced : List Char) (s : String) : String :=
  String.ofList (s.toList.map fun c => if replaced.contains c then '_' else c)

/-- The name of the factory class of a module. -/
def factoryName (identifier : String) : String :=
  underscored ['-'] identifier ++ "Factory"

/-- A module name as the start of C names. -/
def identifierStem (moduleName : String) : String :=
  underscored ['-', '.'] moduleName

/-- A text with its line breaks written as escapes. -/
def escapeBreaks (s : String) : String :=
  String.ofList (s.toList.flatMap fun c => if c = '\n' then ['\\', 'n'] else [c])

end Foundry
