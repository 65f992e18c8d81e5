import Foundry.Yaml.Node

/-!
# Merging YAML values

`base.merge overlay` lays one value over another. Where both are mappings without a tag, they are
united key by key, to any depth: keys stay where the base has them, and those that only the overlay
has follow in its order. Everywhere else the overlay stands.
-/

namespace Foundry.Yaml

namespace Entries

/-- Changes the value at a key, or appends the key. -/
def update (key : Node) (f : Option Node → Node) : Entries → Entries
  | [] => [(key, f none)]
  | (k, v) :: es => if key.same k then (k, f (some v)) :: es else (k, v) :: update key f es

/-- Changes the value at a key, if there is one. -/
def modify (key : Node) (f : Node → Node) : Entries → Entries
  | [] => []
  | (k, v) :: es => if key.same k then (k, f v) :: es else (k, v) :: modify key f es

end Entries

namespace Node

mutual

/-- One value laid over another. -/
def merge : Node → Node → Node
  | map base, map overlay => map (mergeEntries base overlay)
  | _, overlay => overlay

/-- Entries laid over others, from the first on. -/
def mergeEntries : List (Node × Node) → List (Node × Node) → List (Node × Node)
  | base, [] => base
  | base, (k, v) :: es =>
    mergeEntries (Entries.update k (fun old => old.elim v fun o => merge o v) base) es

end

end Node

end Foundry.Yaml
