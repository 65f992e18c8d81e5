import Foundry.Yaml.Document
import Foundry.Yaml.Plain

/-!
# Reading YAML values

`Node.ofText?` reads the value of a text. An empty text is null. There is no value where the text is
malformed or holds two documents, where a mapping repeats a key, where more than `depthLimit`
collections stand within each other, where a tag of YAML's own does not fit its scalar, or where an
integer has too many bits.

A tag that starts with `!` stays around its value. Of the others, four ask for null, a truth value,
an integer or a floating-point number, and any other one makes a scalar a string.
-/

namespace Foundry.Yaml

/-- Whether no two keys of a mapping are the same. -/
def Entries.keysDistinct : Entries → Bool
  | [] => true
  | (k, _) :: es => es.all (fun e => !k.same e.1) && keysDistinct es

/-- The name in a tag that starts with `!`; a second one is not part of it. -/
def localName? : List Char → Option (List Char)
  | '!' :: '!' :: c :: r => some (c :: r)
  | '!' :: r => some r
  | _ => none

namespace Node

/-- The greatest number of collections within each other. -/
def depthLimit : Nat := 128

/-- A value with the tag of its node; a tag without a name is refused. -/
def withTag? (tag : Option (List Char)) (n : Node) : Option Node :=
  match tag.bind localName? with
  | some [] => none
  | some name => some (tagged (String.ofList name) n)
  | none => some n

/-- The value of a scalar with one of YAML's own tags, or with a foreign one. -/
def coreScalar? (tag : String) (text : List Char) : Option Node :=
  if tag = "tag:yaml.org,2002:bool" then (boolWord? text).map bool
  else if tag = "tag:yaml.org,2002:int" then
    match readInteger text with
    | .integer i => some (int i)
    | _ => none
  else if tag = "tag:yaml.org,2002:float" then (readFloat? text).map float
  else if tag = "tag:yaml.org,2002:null" then if isNullWord text then some null else none
  else some (str (String.ofList text))

/-- The value of a scalar. -/
def ofScalar? (tag : Option (List Char)) (text : List Char) (plain : Bool) : Option Node :=
  let untagged := if plain then plainNode? text else some (str (String.ofList text))
  match tag with
  | none => untagged
  | some t =>
    if (localName? t).isSome then untagged.bind (withTag? tag)
    else coreScalar? (String.ofList t) text

/-- The value of a tree, at most `depth` collections deep. -/
def ofTree (d : Document) : Nat → Tree Nat → StateT Nat Option Node
  | 0, t => do
    match ← d.follow t with
    | .scalar p text plain => ofScalar? p.tag text plain
    | _ => failure
  | depth + 1, t => do
    match ← d.follow t with
    | .aliasOf _ => failure
    | .scalar p text plain => ofScalar? p.tag text plain
    | .seq p items =>
      let items ← items.mapM (ofTree d depth)
      withTag? p.tag (seq items)
    | .map p entries =>
      let entries ← entries.mapM fun (k, v) => do pure (← ofTree d depth k, ← ofTree d depth v)
      if Entries.keysDistinct entries then withTag? p.tag (map entries) else failure

/-- The value of a text. -/
def ofText? (text : String) : Option Node := do
  match ← Document.ofText? text with
  | some d => (ofTree d depthLimit d.root).run' 0
  | none => pure null

end Node

end Foundry.Yaml
