/-!
# Module kinds

A descriptor says what kind of module it describes by one key at its top: `component`, `plugin` or
`backend`.
-/

namespace Foundry

/-- The kinds of modules. -/
inductive Kind where
  | component
  | plugin
  | backend
  deriving DecidableEq

namespace Kind

/-- Every kind, in the order in which they are looked for. -/
def all : List Kind := [component, plugin, backend]

/-- The key that declares the kind. -/
def key : Kind → String
  | component => "component"
  | plugin => "plugin"
  | backend => "backend"

/-- The attributes that the kind requires, besides an identifier. -/
def required : Kind → List String
  | component => ["description", "class", "include", "implementation"]
  | _ => ["description", "class", "include"]

end Kind

end Foundry
