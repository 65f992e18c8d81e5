import Foundry.Module

/-!
# Modules as YAML values

`Module.toNode` is a module as a mapping, for a reader of the resolved module: the attributes in a
fixed order, parameters with their literals, and the role last.
-/

namespace Foundry

open Yaml

/-- A parameter as a mapping. -/
def Declaration.toNode (d : Declaration) : Node :=
  .map [(.str "name", .str d.name), (.str "type_name", .str d.typeName),
    (.str "cc_type", .str d.ccType), (.str "raw_default", d.rawDefault),
    (.str "default", .str d.default), (.str "description", .str d.description),
    (.str "advanced", .bool d.advanced)]

/-- What only modules of one kind have, as entries. -/
def Role.entries : Role → Entries
  | component implementation priority =>
    [(.str "implementation", .str implementation), (.str "priority", .int priority)]
  | _ => []

namespace Module

/-- The entries of a module as a mapping. -/
def entries (m : Module) : Entries :=
  [(.str "source", .str m.source.text), (.str "identifier", .str m.identifier),
   (.str "description", .str m.description), (.str "class", .str m.className),
   (.str "includes", .seq (m.includes.map .str)), (.str "discover", m.discover.elim .null .str),
   (.str "parameters", .seq (m.parameters.map Declaration.toNode)),
   (.str "kind", .str m.role.kind.key)] ++ m.role.entries

/-- A module as a mapping. -/
def toNode (m : Module) : Node := .map m.entries

end Module

end Foundry
