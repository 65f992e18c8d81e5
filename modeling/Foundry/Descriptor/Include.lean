import Foundry.Descriptor.Error
import Foundry.Yaml.Merge

/-!
# The include directive

A document names the fragments it builds on under its key `include`: one path or a list of paths,
each of them any scalar. The directive is read through a tag around the document, but a tag around
the directive itself or around an entry hides it.

`withoutDirective` takes the directive out of a document. An empty document counts as an empty
mapping; a document with a tag is left as it is.
-/

namespace Foundry

open Yaml

/-- The key of the directive. -/
def directiveKey : String := "include"

/-- The path that an entry of a list names. -/
def directiveEntry : Node → Except DirectiveFault String
  | .seq _ => .error .nestedSequence
  | .map _ => .error .nestedMapping
  | n => match n.text? with
    | some path => .ok path
    | none => .error .entryWithoutText

/-- The paths that a directive names. -/
def directivePaths : Node → Except DirectiveFault (List String)
  | .null => .ok []
  | .seq entries => entries.mapM directiveEntry
  | .map _ => .error .mapping
  | n => match n.text? with
    | some path => .ok [path]
    | none => .error .withoutText

/-- The paths that a document includes, in order. -/
def includedPaths (document : Node) : Except DirectiveFault (List String) :=
  match document.entries?.bind (·.field? directiveKey) with
  | some directive => directivePaths directive
  | none => .ok []

/-- The paths that the document of a file includes. -/
def includeEntries (document : Node) (path : Path) : Except DescriptorError (List String) :=
  (includedPaths document).mapError (.invalidDirective path)

/-- A document without its directive. -/
def withoutDirective : Node → Node
  | .map es => .map (es.filter fun e => e.1.string? != some directiveKey)
  | .null => .map []
  | n => n

end Foundry
