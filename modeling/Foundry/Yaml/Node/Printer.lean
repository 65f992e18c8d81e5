import Foundry.Yaml.Style

/-!
# Writing YAML values

`Node.print?` writes a value in block style, two spaces deeper for each level. A sequence under a
key is not indented further; empty collections are `[]` and `{}`. A key stands before its `:` when
it is short, without breaks and no collection that has items; any other key stands behind a `?`.

Where a collection follows a `-`, a `?` or a `:` of its own line, its first entry follows on the
same line, unless a tag comes between.

Two shapes cannot be written: a tag directly around a tag, and a mapping of one entry whose key has
a tag or is a mapping of one entry, unless a tag is directly around the mapping.
-/

namespace Foundry.Yaml

/-! ### Tags -/

/-- A character that stands for itself in a tag. -/
def isTagText (c : Char) : Bool :=
  c.isAlphanum || "-_;/?:@&=+$,.~*'()[]".toList.contains c

/-- The name of a tag; other characters are escaped byte by byte. -/
def spellTagName (name : String) : List Char :=
  name.toList.flatMap fun c =>
    if isTagText c then [c]
    else (String.singleton c).toUTF8.toList.flatMap fun b => '%' :: hexDigits 2 b.toNat

/-- A tag. -/
def spellTag (name : String) : List Char := '!' :: spellTagName name

/-! ### Lines -/

/-- A text that ends where a line begins. -/
def endLine (s : List Char) : List Char :=
  if s.getLast?.any isBreak then s else s ++ ['\n']

/-- Entries, each on lines of its own. -/
def stackEntries (indent : Nat) : List (List Char) → List Char
  | [] => []
  | [e] => e
  | e :: es => endLine e ++ indentation indent ++ stackEntries indent es

/-! ### Places -/

/-- Where a node stands: at the start of the document, behind a `-`, behind a key, or behind a `?`
or a `:` that begins a line. -/
inductive Slot where
  | document
  | item
  | value
  | explicit
  deriving DecidableEq

namespace Slot

/-- The blank between the mark of a place and what stands there. -/
def gap : Slot → List Char
  | document => []
  | _ => [' ']

/-- The tag of a node, with the blank before it. -/
def tagText (slot : Slot) (tag : Option String) : List Char :=
  tag.elim [] fun t => slot.gap ++ spellTag t

/-- What stands on one line with the tag. -/
def beside (slot : Slot) (tag : Option String) (text : List Char) : List Char :=
  slot.tagText tag ++ (if tag.isSome then [' '] else slot.gap) ++ text

/-- Whether the first entry of a collection stands on the line of its mark. -/
def startsInline (slot : Slot) (tag : Option String) : Bool :=
  slot != value && tag.isNone

/-- The indentation of a mapping, or of a sequence that is indented. -/
def inner (slot : Slot) (indent : Nat) : Nat :=
  if slot = document then 0 else indent + 2

/-- The indentation of a sequence. -/
def innerSequence (slot : Slot) (tag : Option String) (indent : Nat) : Nat :=
  if slot = value ∨ slot = explicit ∧ tag.isSome then indent else slot.inner indent

/-- The entries of a collection, with what stands before them. -/
def block (slot : Slot) (tag : Option String) (indent : Nat) (entries : List (List Char)) :
    List Char :=
  slot.tagText tag ++
    (if slot.startsInline tag then slot.gap else '\n' :: indentation indent) ++
    stackEntries indent entries

end Slot

/-! ### Nodes -/

namespace Node

/-- The text of a scalar or an empty collection. -/
def spellLeaf? (indent : Nat) : Node → Option (List Char)
  | null => some "null".toList
  | bool b => some (if b then "true" else "false").toList
  | int i => some (toString i).toList
  | float x => some (Decimal.Spelling.yaml.spell x).toList
  | str s => some (spellString indent s.toList)
  | seq [] => some ['[', ']']
  | map [] => some ['\x7b', '\x7d']
  | _ => none

/-- The greatest length of a key before its `:`, in bytes. -/
def keyLimit : Nat := 128

/-- The length of a key as it counts for `keyLimit`: without quotes, escapes and brackets. -/
def keyLength : Node → Nat
  | tagged tag n => 1 + tag.utf8ByteSize + n.keyLength
  | str s => s.utf8ByteSize
  | seq _ | map _ => 0
  | n => (n.spellLeaf? 0).elim 0 List.length

/-- The text of a key that stands before its `:`. -/
def simpleKey? (key : Node) : Option (List Char) :=
  if keyLimit < key.keyLength ∨ (key.string?.any fun s => s.toList.any isBreak) then none
  else match key with
    | tagged tag n => (n.spellLeaf? 0).map (Slot.document.beside tag ·)
    | n => n.spellLeaf? 0

/-- Whether a mapping with this key alone loses its start. -/
def losesStart : Node → Bool
  | tagged .. | map [_] => true
  | _ => false

mutual

/-- The text of a node behind the mark of its place; `indent` is that of the mark. -/
def write? (slot : Slot) (indent : Nat) (tag : Option String) : Node → Option (List Char)
  | tagged t n => if tag.isSome then none else n.write? slot indent (some t)
  | seq (x :: xs) => do
    let inner := slot.innerSequence tag indent
    pure (slot.block tag inner (← writeItems? inner (x :: xs)))
  | map ((k, v) :: es) => do
    if tag.isNone && es.isEmpty && k.losesStart then failure
    let inner := slot.inner indent
    pure (slot.block tag inner (← writeEntries? inner ((k, v) :: es)))
  | n => (n.spellLeaf? (indent + 2)).map (slot.beside tag)

/-- The texts of the items of a sequence. -/
def writeItems? (indent : Nat) : List Node → Option (List (List Char))
  | [] => some []
  | x :: xs => do
    let text ← x.write? .item indent none
    pure (('-' :: text) :: (← writeItems? indent xs))

/-- The texts of the entries of a mapping. -/
def writeEntries? (indent : Nat) : List (Node × Node) → Option (List (List Char))
  | [] => some []
  | (k, v) :: es => do
    let text ← match k.simpleKey? with
      | some key => do pure (key ++ ':' :: (← v.write? .value indent none))
      | none => do
        let key ← k.write? .explicit indent none
        pure ('?' :: endLine key ++ indentation indent ++ ':' ::
          (← v.write? .explicit indent none))
    pure (text :: (← writeEntries? indent es))

end

/-- The text of a value as a document. -/
def print? (n : Node) : Option String :=
  (n.write? .document 0 none).map fun s => String.ofList (endLine s)

end Node

end Foundry.Yaml
