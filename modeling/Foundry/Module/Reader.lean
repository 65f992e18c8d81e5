import Foundry.Descriptor.Generic
import Foundry.Descriptor.Resolve
import Foundry.Module
import Foundry.Parameter.Registry

/-!
# Reading modules from documents

`Module.ofDocument` reads a resolved document. The document has to declare exactly one kind; then
all attributes that the kind requires have to be there, and those that are missing are told at once.
After that every attribute is read in a fixed order, parameters in the order of the document, and
the first fault is told.

Attributes are text: a string, a number or a truth value without a tag. Kinds and parameters may
have tags, which do not count.

* `missing_eq_nil_iff`: nothing is missing when every name is a key.
-/

namespace Foundry

open Decimal Parameter Text Yaml

-- A power with a natural exponent is the repeated product.
attribute [local instance (high)] instPowNat

/-! ### Attributes -/

/-- The names that are not keys. -/
def missing (fields : Entries) (names : List String) : List String :=
  names.filter fun name => !fields.hasField name

/-- The keys of a mapping in a descriptor, and where it stands. -/
structure Attributes where
  fields : Entries
  path : Path
  place : Place

namespace Attributes

/-- The error that tells a fault of an attribute. -/
def refuse (a : Attributes) (name : String) (fault : AttributeFault) : DescriptorError :=
  .invalidAttribute a.path a.place name fault

/-- Refuses a mapping that lacks some of the names. -/
def require (a : Attributes) (absent : List String) : Except DescriptorError Unit :=
  if absent.isEmpty then .ok () else .error (.missingAttributes a.path a.place absent)

/-- An attribute that is text. -/
def text (a : Attributes) (name : String) : Except DescriptorError String :=
  match (a.fields.field? name).bind Node.text? with
  | some s => .ok s
  | none => .error (a.refuse name .notText)

/-- An attribute that is text, null or absent. -/
def optionalText (a : Attributes) (name : String) : Except DescriptorError (Option String) :=
  match a.fields.field? name with
  | none | some .null => .ok none
  | some n => match n.text? with
    | some s => .ok (some s)
    | none => .error (a.refuse name .notText)

/-- An attribute that is text or a list of texts. -/
def texts (a : Attributes) (name : String) : Except DescriptorError (List String) :=
  match a.fields.field? name with
  | none => .ok []
  | some (.seq items) => items.mapM fun item =>
    match item.text? with
    | some s => .ok s
    | none => .error (a.refuse name .notTexts)
  | some n => match n.text? with
    | some s => .ok [s]
    | none => .error (a.refuse name .notTextOrTexts)

/-- An integer of 64 bits, if it is one. -/
def int64? (i : Int) : Option Int :=
  if -2 ^ (63 : Nat) ≤ i ∧ i < 2 ^ (63 : Nat) then some i else none

/-- The integer of 64 bits that a text is: an optional sign and digits. -/
def int64OfText? (cs : List Char) : Option Int :=
  let (sign, digits) := spanSign cs
  if digits.isEmpty ∨ !digits.all Char.isDigit then none
  else
    let n : Int := natOfDigits digits
    int64? (if sign = some '-' then -n else n)

/-- An attribute that is an integer, its text, null or absent; the latter two stand for zero. -/
def integer (a : Attributes) (name : String) : Except DescriptorError Int :=
  let checked (i : Option Int) : Except DescriptorError Int :=
    match i with
    | some i => .ok i
    | none => .error (a.refuse name .notAnInteger)
  match a.fields.field? name with
  | none | some .null => .ok 0
  | some (.int i) => checked (int64? i)
  | some (.str s) => checked (int64OfText? (trim s.toList))
  | some _ => checked none

end Attributes

/-! ### Parameters -/

/-- The attributes that a parameter requires. -/
def declarationRequired : List String := ["type", "default", "description"]

/-- Reads a parameter of a descriptor. -/
def Declaration.ofEntry (registry : Registry) (path : Path) (name : String) (entry : Node) :
    Except DescriptorError Declaration :=
  let place := Place.parameter name
  let converting {α : Type} (r : Except ConversionError α) : Except DescriptorError α :=
    r.mapError (.invalidParameter path name)
  match entry.entries? with
  | none => .error (.invalidAttribute path place name .notAParameter)
  | some fields => do
    let a : Attributes := ⟨fields, path, place⟩
    a.require (missing fields declarationRequired)
    let typeName ← a.text "type"
    let description ← a.text "description"
    let rawDefault := (fields.field? "default").getD .null
    let converter ← converting (registry.lookup typeName)
    let default ← converting (converter.convert rawDefault)
    let advanced ← match fields.field? "advanced" with
      | none | some .null => pure false
      | some n => converting (readBoolean n)
    pure
      { name, typeName, ccType := converter.ccType, rawDefault, default
        description := escapeBreaks description, advanced }

/-- Reads the parameters of a module, which the attributes are those of. -/
def Attributes.declarations (a : Attributes) (registry : Registry) :
    Except DescriptorError (List Declaration) :=
  match a.fields.field? parametersKey with
  | none | some .null => .ok []
  | some (.map entries) => entries.mapM fun (key, entry) =>
    match key.text? with
    | some name => Declaration.ofEntry registry a.path name entry
    | none => .error (a.refuse parametersKey .nameNotScalar)
  | some _ => .error (a.refuse parametersKey .notAMapping)

/-! ### Modules -/

/-- The kind that a document declares, and the mapping it declares it with. -/
def classify (path : Path) (document : Node) : Except DescriptorError (Kind × Entries) :=
  let refuse (fault : KindFault) : Except DescriptorError (Kind × Entries) :=
    .error (.invalidKind path fault)
  match document.entries? with
  | none => refuse .notAMapping
  | some top =>
    match Kind.all.filter fun k => top.hasField k.key with
    | [] => refuse (.noKind (top.filterMap fun e => e.1.text?))
    | [kind] =>
      match (top.field? kind.key).bind Node.entries? with
      | some fields => .ok (kind, fields)
      | none => refuse (.kindNotAMapping kind)
    | several => refuse (.severalKinds several)

/-- The attributes that a module of a kind lacks; `type` stands for itself and for `name`. -/
def missingAttributes (kind : Kind) (fields : Entries) : List String :=
  (if fields.hasField "type" || fields.hasField "name" then [] else ["type"]) ++
    missing fields kind.required

namespace Module

/-- Reads the module that a document describes; `path` is where it was read from. -/
def ofDocument (registry : Registry) (path : Path) (document : Node) :
    Except DescriptorError Module := do
  let (kind, fields) ← classify path document
  let a : Attributes := ⟨fields, path, .module kind⟩
  a.require (missingAttributes kind fields)
  let identifier ← a.text (if fields.hasField "type" then "type" else "name")
  let role ← match kind with
    | .component => do
      let implementation ← a.text "implementation"
      pure (Role.component implementation (← a.integer "priority"))
    | .plugin => pure .plugin
    | .backend => pure .backend
  let discover ← if kind = .plugin then pure none else a.optionalText "discover"
  let parameters ← a.declarations registry
  let description ← a.text "description"
  let className ← a.text "class"
  let includes ← a.texts "include"
  pure
    { source := path, identifier, description := escapeBreaks description, className, includes
      discover, parameters, role }

/-- Reads the module that a file describes, with its fragments and the generic parameters. -/
def load (tree : FileTree) (registry : Registry) (path : Path) : Except DescriptorError Module := do
  ofDocument registry path (withGenerics (← tree.resolve path))

end Module

theorem missing_eq_nil_iff {fields : Entries} {names : List String} :
    missing fields names = [] ↔ ∀ name ∈ names, fields.hasField name = true := by
  simp [missing, List.filter_eq_nil_iff]

end Foundry
