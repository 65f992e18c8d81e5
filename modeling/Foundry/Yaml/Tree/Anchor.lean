import Foundry.Yaml.Tree

/-!
# Anchors by number

An anchor gets the number of different names that were met before it, and keeps to its newest
number. An alias stands for the last node with the number that its name has at that place. So an
alias means the node that its name was last given to, as long as no name is given twice; where one
is, the number of its second use may be given to another name later.

`number?` replaces names by numbers and refuses an alias whose name was not met, and `anchored`
lists the nodes that aliases stand for.
-/

namespace Foundry.Yaml

/-- Numbers by name. -/
abbrev AnchorNumbers := List (List Char × Nat)

/-- Gives a name the next number. -/
def AnchorNumbers.give (numbers : AnchorNumbers) (name : List Char) : Nat × AnchorNumbers :=
  let next := numbers.length
  (next, (name, next) :: numbers.filter fun e => e.1 != name)

namespace Tree

/-- The properties of a node with its anchor numbered. -/
def numberProperties (p : Properties (List Char)) (numbers : AnchorNumbers) :
    Properties Nat × AnchorNumbers :=
  match p.anchor with
  | some name =>
    let (n, numbers) := numbers.give name
    (⟨some n, p.tag⟩, numbers)
  | none => (⟨none, p.tag⟩, numbers)

mutual

/-- A tree with its anchors numbered, from the numbers given before it. -/
def number? : Tree (List Char) → AnchorNumbers → Option (Tree Nat × AnchorNumbers)
  | aliasOf name, numbers => (numbers.lookup name).map fun n => (aliasOf n, numbers)
  | scalar p text plain, numbers =>
    let (p, numbers) := numberProperties p numbers
    some (scalar p text plain, numbers)
  | seq p items, numbers =>
    let (p, numbers) := numberProperties p numbers
    (numberItems? items numbers).map fun (items, numbers) => (seq p items, numbers)
  | map p entries, numbers =>
    let (p, numbers) := numberProperties p numbers
    (numberEntries? entries numbers).map fun (entries, numbers) => (map p entries, numbers)

def numberItems? : List (Tree (List Char)) → AnchorNumbers →
    Option (List (Tree Nat) × AnchorNumbers)
  | [], numbers => some ([], numbers)
  | t :: ts, numbers => do
    let (t, numbers) ← number? t numbers
    let (ts, numbers) ← numberItems? ts numbers
    pure (t :: ts, numbers)

def numberEntries? : List (Tree (List Char) × Tree (List Char)) → AnchorNumbers →
    Option (List (Tree Nat × Tree Nat) × AnchorNumbers)
  | [], numbers => some ([], numbers)
  | (k, v) :: es, numbers => do
    let (k, numbers) ← number? k numbers
    let (v, numbers) ← number? v numbers
    let (es, numbers) ← numberEntries? es numbers
    pure ((k, v) :: es, numbers)

end

mutual

/-- The nodes of a tree that have an anchor, in order. -/
def anchored : Tree Nat → List (Nat × Tree Nat)
  | aliasOf _ => []
  | scalar p text plain => p.anchor.toList.map (·, scalar p text plain)
  | seq p items => p.anchor.toList.map (·, seq p items) ++ anchoredItems items
  | map p entries => p.anchor.toList.map (·, map p entries) ++ anchoredEntries entries

def anchoredItems : List (Tree Nat) → List (Nat × Tree Nat)
  | [] => []
  | t :: ts => anchored t ++ anchoredItems ts

def anchoredEntries : List (Tree Nat × Tree Nat) → List (Nat × Tree Nat)
  | [] => []
  | (k, v) :: es => anchored k ++ anchored v ++ anchoredEntries es

end

end Tree

end Foundry.Yaml
