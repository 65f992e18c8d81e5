/-!
# YAML serialization trees

A `Tree` is a document before its aliases are followed: scalars with their text, sequences, mappings
and aliases. A node may have an anchor, which aliases name, and a tag. Anchors are of any type:
texts when the document was just read, numbers once they are told apart.
-/

namespace Foundry.Yaml

/-- What may stand before a node. -/
structure Properties (α : Type) where
  anchor : Option α
  tag : Option (List Char)

/-- A document with anchors and aliases. -/
inductive Tree (α : Type) where
  | aliasOf (anchor : α)
  | scalar (properties : Properties α) (text : List Char) (plain : Bool)
  | seq (properties : Properties α) (items : List (Tree α))
  | map (properties : Properties α) (entries : List (Tree α × Tree α))

namespace Tree

variable {α : Type}

/-- The anchor and the tag of a node; an alias has neither. -/
def properties : Tree α → Properties α
  | aliasOf _ => ⟨none, none⟩
  | scalar p _ _ | seq p _ | map p _ => p

mutual

/-- The number of steps it takes to read a tree: one for a scalar or an alias, and two for a
collection, to enter and to leave it. -/
def size : Tree α → Nat
  | aliasOf _ | scalar .. => 1
  | seq _ items => sizeItems items + 2
  | map _ entries => sizeEntries entries + 2

def sizeItems : List (Tree α) → Nat
  | [] => 0
  | t :: ts => size t + sizeItems ts

def sizeEntries : List (Tree α × Tree α) → Nat
  | [] => 0
  | (k, v) :: es => size k + size v + sizeEntries es

end

end Tree

end Foundry.Yaml
