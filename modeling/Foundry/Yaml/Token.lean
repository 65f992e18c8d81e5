/-!
# Tokens of YAML text

What a lexer finds in a text: marks, properties and scalars. The start of a block collection and
its end are tokens too; they stand for changes of indentation.

A scalar is `plain` when it was written without quotes and outside a block; only then can it be
anything but a string.
-/

namespace Foundry.Yaml

/-- A token. -/
inductive Token where
  | version (major minor : Nat)
  | tagDirective (handle start : List Char)
  | documentStart
  | documentEnd
  | blockSequence
  | blockMapping
  | blockEnd
  | flowSequence
  | flowSequenceEnd
  | flowMapping
  | flowMappingEnd
  | blockEntry
  | flowEntry
  | key
  | value
  | aliasOf (name : List Char)
  | anchor (name : List Char)
  | tag (handle suffix : List Char)
  | scalar (text : List Char) (plain : Bool)
  | streamEnd
  deriving DecidableEq

end Foundry.Yaml
