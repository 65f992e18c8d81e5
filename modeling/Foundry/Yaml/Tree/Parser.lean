import Foundry.Yaml.Token
import Foundry.Yaml.Tree

/-!
# From tokens to a tree

The grammar of a YAML document over its tokens. A text holds at most one document here; one without
any content still has a node, an empty scalar, once it is opened by `---`.

In a flow sequence a pair may stand without braces. Its key has to be there when it is marked by
`?`: the mark behind a missing one is passed over.

Every rule takes the tokens from its start on and yields the node and the tokens behind it, or
nothing where the tokens do not fit. The rules call each other; `bound` limits their depth, which
the number of tokens satisfies.
-/

namespace Foundry.Yaml

/-- What a tag handle stands for. -/
abbrev TagHandles := List (List Char × List Char)

/-- The handles that stand for something without a directive. -/
def TagHandles.standard : TagHandles :=
  [(['!'], ['!']), (['!', '!'], "tag:yaml.org,2002:".toList)]

/-- The text of a tag; its handle has to be known, unless it has none. -/
def Tag.expand? (handles : TagHandles) (handle suffix : List Char) : Option (List Char) :=
  if handle.isEmpty then some suffix
  else (handles.lookup handle).map (· ++ suffix)

namespace Tree

/-- A tree as it is read, with the names of its anchors. -/
abbrev Named := Tree (List Char)

/-- What a rule yields. -/
abbrev Parsed (β : Type) := Option (β × List Token)

/-- The node that stands where nothing is written. -/
def empty : Named := .scalar ⟨none, none⟩ [] true

/-- An anchor, a tag or both, in any order. -/
def parseProperties (handles : TagHandles) (ts : List Token) : Parsed (Properties (List Char)) :=
  match ts with
  | .anchor a :: .tag h s :: r => (Tag.expand? handles h s).map fun t => (⟨some a, some t⟩, r)
  | .tag h s :: .anchor a :: r => (Tag.expand? handles h s).map fun t => (⟨some a, some t⟩, r)
  | .anchor a :: r => some (⟨some a, none⟩, r)
  | .tag h s :: r => (Tag.expand? handles h s).map fun t => (⟨none, some t⟩, r)
  | r => some (⟨none, none⟩, r)

/-- The tag of a scalar: a lone `!` says nothing but that it is plain. -/
def scalarOf (p : Properties (List Char)) (text : List Char) (plain : Bool) : Named :=
  if p.tag = some ['!'] then .scalar { p with tag := none } text plain
  else .scalar p text plain

/-- Whether the tokens go on with one of some marks. -/
def startsWith (marks : List Token) (ts : List Token) : Bool :=
  ts.head?.any marks.contains

mutual

/-- A node. In a block, collections may be block collections; and where `indentless` holds, a
sequence may stand without its own indentation. -/
def parseNode (handles : TagHandles) (block indentless : Bool) :
    Nat → List Token → Parsed Named
  | 0, _ => none
  | _ + 1, .aliasOf a :: r => some (.aliasOf a, r)
  | bound + 1, ts =>
    match parseProperties handles ts with
    | none => none
    | some (p, ts) =>
      match ts with
      | .blockEntry :: _ =>
        if indentless then
          (parseIndentless handles bound ts).map fun (items, r) => (.seq p items, r)
        else if p.anchor.isSome || p.tag.isSome then some (.scalar p [] true, ts)
        else none
      | .scalar text plain :: r => some (scalarOf p text plain, r)
      | .flowSequence :: r =>
        (parseFlowItems handles true bound r).map fun (items, r) => (.seq p items, r)
      | .flowMapping :: r =>
        (parseFlowEntries handles true bound r).map fun (es, r) => (.map p es, r)
      | .blockSequence :: r =>
        if block then (parseItems handles bound r).map fun (items, r) => (.seq p items, r)
        else if p.anchor.isSome || p.tag.isSome then some (.scalar p [] true, ts)
        else none
      | .blockMapping :: r =>
        if block then (parseEntries handles bound r).map fun (es, r) => (.map p es, r)
        else if p.anchor.isSome || p.tag.isSome then some (.scalar p [] true, ts)
        else none
      | _ =>
        if p.anchor.isSome || p.tag.isSome then some (.scalar p [] true, ts) else none

/-- A node in a block, or nothing before one of some marks. -/
def parseOptional (handles : TagHandles) (block indentless : Bool) (marks : List Token) :
    Nat → List Token → Parsed Named
  | 0, _ => none
  | bound + 1, ts =>
    if startsWith marks ts then some (empty, ts) else parseNode handles block indentless bound ts

/-- The entries of a block sequence, and its end. -/
def parseItems (handles : TagHandles) : Nat → List Token → Parsed (List Named)
  | 0, _ => none
  | bound + 1, .blockEntry :: r =>
    match parseOptional handles true false [.blockEntry, .blockEnd] bound r with
    | none => none
    | some (t, r) => (parseItems handles bound r).map fun (ts, r) => (t :: ts, r)
  | _ + 1, .blockEnd :: r => some ([], r)
  | _ + 1, _ => none

/-- The entries of a block sequence that stands in the indentation of its key. -/
def parseIndentless (handles : TagHandles) : Nat → List Token → Parsed (List Named)
  | 0, _ => none
  | bound + 1, .blockEntry :: r =>
    match parseOptional handles true false [.blockEntry, .key, .value, .blockEnd] bound r with
    | none => none
    | some (t, r) => (parseIndentless handles bound r).map fun (ts, r) => (t :: ts, r)
  | _ + 1, r => some ([], r)

/-- The entries of a block mapping, and its end. -/
def parseEntries (handles : TagHandles) : Nat → List Token → Parsed (List (Named × Named))
  | 0, _ => none
  | bound + 1, .key :: r =>
    let marks := [.key, .value, .blockEnd]
    match parseOptional handles true true marks bound r with
    | none => none
    | some (k, r) =>
      let value := match r with
        | .value :: r => parseOptional handles true true marks bound r
        | r => some (empty, r)
      match value with
      | none => none
      | some (v, r) => (parseEntries handles bound r).map fun (es, r) => ((k, v) :: es, r)
  | _ + 1, .blockEnd :: r => some ([], r)
  | _ + 1, _ => none

/-- The entries of a flow sequence, with commas between them, and its end. -/
def parseFlowItems (handles : TagHandles) (first : Bool) :
    Nat → List Token → Parsed (List Named)
  | 0, _ => none
  | _ + 1, .flowSequenceEnd :: r => some ([], r)
  | bound + 1, ts =>
    let separated := if first then some ts else match ts with
      | .flowEntry :: r => some r
      | _ => none
    match separated with
    | none => none
    | some (.flowSequenceEnd :: r) => some ([], r)
    | some (.key :: r) =>
      match parsePair handles bound r with
      | none => none
      | some (t, r) => (parseFlowItems handles false bound r).map fun (ts, r) => (t :: ts, r)
    | some r =>
      match parseNode handles false false bound r with
      | none => none
      | some (t, r) => (parseFlowItems handles false bound r).map fun (ts, r) => (t :: ts, r)

/-- A pair in a flow sequence, behind the mark of its key. -/
def parsePair (handles : TagHandles) : Nat → List Token → Parsed Named
  | 0, _ => none
  | bound + 1, ts =>
    let pair (k v : Named) : Named := .map ⟨none, none⟩ [(k, v)]
    let key :=
      if startsWith [.value, .flowEntry, .flowSequenceEnd] ts then some (empty, ts.drop 1)
      else parseNode handles false false bound ts
    match key with
    | none => none
    | some (k, .value :: r) =>
      (parseOptional handles false false [.flowEntry, .flowSequenceEnd] bound r).map
        fun (v, r) => (pair k v, r)
    | some (k, r) => some (pair k empty, r)

/-- The entries of a flow mapping, with commas between them, and its end. -/
def parseFlowEntries (handles : TagHandles) (first : Bool) :
    Nat → List Token → Parsed (List (Named × Named))
  | 0, _ => none
  | _ + 1, .flowMappingEnd :: r => some ([], r)
  | bound + 1, ts =>
    let separated := if first then some ts else match ts with
      | .flowEntry :: r => some r
      | _ => none
    match separated with
    | none => none
    | some (.flowMappingEnd :: r) => some ([], r)
    | some (.key :: r) =>
      match parseOptional handles false false [.value, .flowEntry, .flowMappingEnd] bound r with
      | none => none
      | some (k, r) =>
        let value := match r with
          | .value :: r => parseOptional handles false false [.flowEntry, .flowMappingEnd] bound r
          | r => some (empty, r)
        match value with
        | none => none
        | some (v, r) =>
          (parseFlowEntries handles false bound r).map fun (es, r) => ((k, v) :: es, r)
    | some r =>
      match parseNode handles false false bound r with
      | none => none
      | some (k, r) =>
        (parseFlowEntries handles false bound r).map fun (es, r) => ((k, empty) :: es, r)

end

/-! ### Documents -/

/-- Whether a version of YAML is known. -/
def isKnownVersion (major minor : Nat) : Bool :=
  major == 1 && (minor == 1 || minor == 2)

/-- The directives before a document: at most one version, and tag handles, none given twice. -/
def parseDirectives (versioned : Bool) (handles : TagHandles) :
    List Token → Parsed TagHandles
  | .version major minor :: r =>
    if versioned || !isKnownVersion major minor then none else parseDirectives true handles r
  | .tagDirective handle start :: r =>
    if (handles.lookup handle).isSome then none
    else parseDirectives versioned ((handle, start) :: handles) r
  | r => some (handles, r)

/-- What may stand behind the only document. -/
def isFinished : List Token → Bool
  | .documentEnd :: r => isFinished r
  | [.streamEnd] => true
  | _ => false

/-- The document of a text: no tree if the text is empty, and nothing if it is malformed or holds a
second document. -/
def ofTokens? (ts : List Token) : Option (Option Named) := do
  let bound := 4 * ts.length + 8
  if ts = [.streamEnd] then pure none
  else
    let marked := startsWith [.documentStart] ts ||
      (match ts with
        | .version .. :: _ | .tagDirective .. :: _ => true
        | _ => false)
    let (t, r) ←
      if marked then do
        let (given, r) ← parseDirectives false [] ts
        let handles := given ++ TagHandles.standard
        match r with
        | .documentStart :: r =>
          let isBare := match r with
            | .version .. :: _ | .tagDirective .. :: _ | .documentStart :: _ | .documentEnd :: _
            | .streamEnd :: _ => true
            | _ => false
          if isBare then some (empty, r) else parseNode handles true false bound r
        | _ => none
      else parseNode TagHandles.standard true false bound ts
    if isFinished r then pure (some t) else none

end Tree

end Foundry.Yaml
