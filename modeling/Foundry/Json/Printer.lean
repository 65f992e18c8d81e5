import Foundry.Yaml.Node

/-!
# Writing values as JSON

`Json.print?` writes a YAML value as JSON, two spaces deeper for each level. A tag becomes an object
with one member, whose name is the tag. A number that is not finite becomes null.

Member names are strings, truth values, integers and finite numbers, all written between quotes. A
mapping with any other key cannot be written.
-/

namespace Foundry.Json

open Decimal Yaml

/-! ### Strings -/

/-- A character below the space, by its code. -/
def codeEscape (c : Char) : List Char :=
  let ds := Nat.toDigits 16 c.toNat
  '\\' :: 'u' :: (List.replicate (4 - ds.length) '0' ++ ds)

/-- Characters that have a letter of their own behind the backslash. -/
def shortEscapes : List (Char × Char) :=
  [('"', '"'), ('\\', '\\'), ('\x08', 'b'), ('\x0c', 'f'), ('\n', 'n'), ('\r', 'r'), ('\t', 't')]

/-- A character of a string. -/
def escape (c : Char) : List Char :=
  match shortEscapes.lookup c with
  | some letter => ['\\', letter]
  | none => if c < ' ' then codeEscape c else [c]

/-- A string. -/
def quote (s : String) : String :=
  "\"" ++ String.ofList (s.toList.flatMap escape) ++ "\""

/-! ### Values -/

/-- The name of a member with a key; a key in a tag has none. -/
def memberName? : Node → Option String
  | .str s => some (quote s)
  | .bool b => some (quote (if b then "true" else "false"))
  | .int i => some (quote (toString i))
  | .float x => if x.isFinite then some (quote (Spelling.json.spell x)) else none
  | _ => none

/-- The start of a line. -/
def lineStart (depth : Nat) : String :=
  String.ofList ('\n' :: List.replicate (2 * depth) ' ')

/-- Texts on lines of their own, between brackets; without texts the brackets stand alone. -/
def bracketed (opening closing : String) (depth : Nat) (texts : List String) : String :=
  match texts with
  | [] => opening ++ closing
  | _ =>
    opening ++ lineStart (depth + 1) ++ ("," ++ lineStart (depth + 1)).intercalate texts ++
      lineStart depth ++ closing

mutual

/-- The text of a value; further lines are indented by its depth. -/
def textOf? (depth : Nat) : Node → Option String
  | .null => some "null"
  | .bool b => some (if b then "true" else "false")
  | .int i => some (toString i)
  | .float x => some (if x.isFinite then Spelling.json.spell x else "null")
  | .str s => some (quote s)
  | .seq items => do pure (bracketed "[" "]" depth (← textsOfItems? (depth + 1) items))
  | .map entries => do
    pure (bracketed "\x7b" "\x7d" depth (← textsOfEntries? (depth + 1) entries))
  | .tagged tag n => do
    pure (bracketed "\x7b" "\x7d" depth [quote ("!" ++ tag) ++ ": " ++ (← textOf? (depth + 1) n)])

/-- The texts of the items of a sequence. -/
def textsOfItems? (depth : Nat) : List Node → Option (List String)
  | [] => some []
  | n :: ns => do pure ((← textOf? depth n) :: (← textsOfItems? depth ns))

/-- The texts of the members of an object. -/
def textsOfEntries? (depth : Nat) : List (Node × Node) → Option (List String)
  | [] => some []
  | (k, v) :: es => do
    pure (((← memberName? k) ++ ": " ++ (← textOf? depth v)) :: (← textsOfEntries? depth es))

end

/-- The text of a value as a file. -/
def print? (n : Node) : Option String :=
  (textOf? 0 n).map (· ++ "\n")

end Foundry.Json
