import Foundry.Descriptor.Kind
import Foundry.Yaml.Merge

/-!
# Generic parameters

Every module has five parameters for its log, whether its descriptor declares them or not. They are
laid beneath what the descriptor declares, so a declaration may change any of their fields without
repeating the others.

A kind whose value is not a mapping is left alone, and `parameters` without a value counts as an
empty mapping.

* `withGenerics_of_not_map`: a document that is not a mapping has no kinds to change.
-/

namespace Foundry

open Yaml

/-- A parameter that every module has. -/
structure Generic where
  name : String
  typeName : String
  default : Node
  description : String

namespace Generic

/-- The declaration of the parameter; it is one of the advanced ones. -/
def declaration (g : Generic) : Node :=
  .map [(.str "type", .str g.typeName), (.str "default", g.default),
    (.str "description", .str g.description), (.str "advanced", .bool true)]

/-- The generic parameters, in order. -/
def all : List Generic :=
  [⟨"debug", "boolean", .bool false, "Enable debug messages for this module"⟩,
   ⟨"trace", "boolean", .bool false, "Enable trace messages for this module"⟩,
   ⟨"log-target", "string", .str "stderr",
    "Log target for this module (stdout, stderr or file)"⟩,
   ⟨"log-level", "string", .str "info",
    "Log level for this module (trace, debug, info, warning or error)"⟩,
   ⟨"log-file", "string", .str "", "Log file for this module when log-target is file"⟩]

end Generic

/-- The key of the parameters of a kind. -/
def parametersKey : String := "parameters"

/-- The generic parameters as a fragment of a kind. -/
def genericFragment : Node :=
  .map [(.str parametersKey, .map (Generic.all.map fun g => (.str g.name, g.declaration)))]

/-- A kind's value with the generic parameters beneath it. -/
def underlayGenerics : Node → Node
  | .map fields =>
    genericFragment.merge
      (.map (Entries.modify (.str parametersKey) (fun p => if p.isNull then .map [] else p) fields))
  | n => n

/-- A document with the generic parameters beneath each of its kinds. -/
def withGenerics : Node → Node
  | .map es =>
    .map (Kind.all.foldl (fun es k => Entries.modify (.str k.key) underlayGenerics es) es)
  | n => n

theorem withGenerics_of_not_map {n : Node} (h : ∀ es, n ≠ .map es) : withGenerics n = n := by
  cases n with
  | map es => exact absurd rfl (h es)
  | _ => rfl

end Foundry
