import Foundry.Yaml.Token.Lexer
import Foundry.Yaml.Tree.Anchor
import Foundry.Yaml.Tree.Parser

/-!
# YAML documents

A `Document` is a tree with numbered anchors and the nodes that its aliases stand for. A text that
holds no node at all, not even behind a `---`, has no document but is well formed.

Following an alias is counted: `Document.jumpLimit` bounds how often a reader may do so, which keeps
a small text from growing into a large value.
-/

namespace Foundry.Yaml

/-- A document; `targets` lists the nodes with anchors, the last one first. -/
structure Document where
  root : Tree Nat
  targets : List (Nat × Tree Nat)

namespace Document

/-- The document of a tree. -/
def ofTree? (t : Tree (List Char)) : Option Document := do
  let (root, _) ← t.number? []
  pure ⟨root, root.anchored.reverse⟩

/-- The document of a text: nothing if the text is malformed, and none if it is empty. -/
def ofText? (text : String) : Option (Option Document) := do
  match ← Tree.ofTokens? (← Token.ofText? text.toList) with
  | some t => (ofTree? t).map some
  | none => pure none

/-- The greatest number of aliases that are followed in one reading. -/
def jumpLimit (d : Document) : Nat := 100 * d.root.size

/-- The node that a tree stands for, counting the step from an alias. -/
def follow (d : Document) : Tree Nat → StateT Nat Option (Tree Nat)
  | .aliasOf n => do
    let jumps := (← get) + 1
    if d.jumpLimit < jumps then failure
    set jumps
    d.targets.lookup n
  | t => pure t

end Document

end Foundry.Yaml
