/-!
# Lines of generated text

Generated files are lists of lines, each with a line feed behind it.
-/

namespace Foundry.Artifact

/-- The text of lines. -/
def textOfLines (lines : List String) : String :=
  lines.foldr (fun line rest => line ++ "\n" ++ rest) ""

/-- A line that stands some levels deep in a block. -/
def indented (levels : Nat) (line : String) : String :=
  String.ofList (List.replicate (4 * levels) ' ') ++ line

/-- The line that every generated file starts with. -/
def banner : String := "/* Auto-generated. Modifications will be overwritten */"

/-- The directive for a header of the project. -/
def includeLine (header : String) : String := "#include \"" ++ header ++ "\""

/-- The directive for a header of the framework or of the standard library. -/
def systemIncludeLine (header : String) : String := "#include <" ++ header ++ ">"

end Foundry.Artifact
