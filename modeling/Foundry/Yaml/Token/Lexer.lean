import Foundry.Yaml.Token
import Foundry.Yaml.Token.Scalar

/-!
# The lexer of YAML text

A `Lexer` holds a place in the text and the tokens found before it, newest first. Besides it keeps
what makes YAML hard to read from left to right:

* the columns of the open block collections. A token that stands further to the right opens one, and
  one further to the left closes all that stand to its right;
* for each open flow collection, and once for the block around them, the place of a token that may
  turn out to be a *simple key*. A `:` puts a `key` token there. A simple key has to end on its own
  line and within 1024 characters, and where a block mapping needs one it has to be there.

Text that YAML does not allow has no tokens.
-/

namespace Foundry.Yaml

/-- The place of a token that may be a simple key. -/
structure PendingKey where
  needed : Bool
  position : Nat
  place : Cursor

/-- The state of the lexer between two tokens. -/
structure Lexer where
  cursor : Cursor
  tokens : List Token
  count : Nat
  flowLevel : Nat
  indent : Int
  outerIndents : List Int
  keyAllowed : Bool
  pending : List (Option PendingKey)

namespace Lexer

def inFlow (l : Lexer) : Bool := 0 < l.flowLevel

/-- The start of a text. -/
def ofText (cs : List Char) : Lexer :=
  ⟨Cursor.ofText cs, [], 0, 0, -1, [], true, [none]⟩

/-- Adds a token behind the others. -/
def emit (t : Token) (l : Lexer) : Lexer :=
  { l with tokens := t :: l.tokens, count := l.count + 1 }

/-- Adds a token behind the first `position` ones. -/
def insert (position : Nat) (t : Token) (l : Lexer) : Lexer :=
  let later := l.count - position
  { l with tokens := l.tokens.take later ++ t :: l.tokens.drop later, count := l.count + 1 }

/-- Moves on in the text. -/
def moveTo (c : Cursor) (l : Lexer) : Lexer := { l with cursor := c }

/-- Adds a mark of one character and passes over it. -/
def emitMark (t : Token) (l : Lexer) : Lexer :=
  (l.emit t).moveTo (l.cursor.advance 1)

/-- Says whether a simple key may follow. -/
def allowKey (allowed : Bool) (l : Lexer) : Lexer := { l with keyAllowed := allowed }

/-! ### Simple keys -/

/-- Gives up the possible simple key of the innermost collection; one that is needed is missed. -/
def dropKey (l : Lexer) : Option Lexer :=
  match l.pending with
  | some k :: ks => if k.needed then none else some { l with pending := none :: ks }
  | _ => some l

/-- Notes that the next token may be a simple key. -/
def saveKey (l : Lexer) : Option Lexer :=
  if l.keyAllowed then do
    let needed := !l.inFlow && l.indent == (l.cursor.column : Int)
    let l ← l.dropKey
    pure { l with pending := some ⟨needed, l.count, l.cursor⟩ :: l.pending.drop 1 }
  else some l

/-- Gives up the possible simple keys that are too far back. -/
def dropStaleKeys (l : Lexer) : Option Lexer := do
  let pending ← l.pending.mapM fun
    | some k =>
      if k.place.line < l.cursor.line ∨ k.place.index + 1024 < l.cursor.index then
        if k.needed then none else some none
      else some (some k)
    | none => some none
  pure { l with pending := pending }

/-! ### Block collections -/

/-- Opens a block collection at a column, unless one is open there. Its token goes behind the first
`position` ones, or behind all. -/
def openBlock (column : Nat) (position : Option Nat) (t : Token) (l : Lexer) : Lexer :=
  if !l.inFlow && l.indent < column then
    let l := { l with indent := column, outerIndents := l.indent :: l.outerIndents }
    match position with
    | some n => l.insert n t
    | none => l.emit t
  else l

/-- The number of open blocks to the right of a column, and the indents without them. -/
def blocksBeyond (column : Int) : Int → List Int → Nat × Int × List Int
  | indent, outer :: more =>
    if column < indent then
      let (n, rest) := blocksBeyond column outer more
      (n + 1, rest)
    else (0, indent, outer :: more)
  | indent, [] => (0, indent, [])

/-- Closes the block collections to the right of a column. -/
def closeBlocks (column : Int) (l : Lexer) : Lexer :=
  if l.inFlow then l
  else
    let (n, indent, outer) := blocksBeyond column l.indent l.outerIndents
    { l with
      tokens := List.replicate n .blockEnd ++ l.tokens
      count := l.count + n
      indent := indent
      outerIndents := outer }

/-! ### Directives, anchors, tags -/

/-- A number of at most nine digits. -/
def readNumber (c : Cursor) : Option (Nat × Cursor) :=
  let (digits, c) := c.span Char.isDigit
  if digits.isEmpty ∨ 9 < digits.length then none
  else some (digits.foldl (fun n d => 10 * n + (d.toNat - '0'.toNat)) 0, c)

/-- The bytes of an escaped character of a tag, from its first one. -/
def readEscapedBytes : Nat → List Char → Option (List Nat × List Char)
  | 0, r => some ([], r)
  | n + 1, '%' :: a :: b :: r => do
    let byte := 16 * (← hexValue? a) + (← hexValue? b)
    let (more, r) ← readEscapedBytes n r
    pure (byte :: more, r)
  | _ + 1, _ => none

/-- An escaped character of a tag: `%` and two digits for each of its bytes in UTF-8. -/
def readTagEscape (cs : List Char) : Option (Char × List Char) := do
  let (first, _) ← readEscapedBytes 1 cs
  let lead ← first.head?
  let (width, value) ←
    if lead < 0x80 then some (1, lead)
    else if 0xC0 ≤ lead ∧ lead < 0xE0 then some (2, lead - 0xC0)
    else if 0xE0 ≤ lead ∧ lead < 0xF0 then some (3, lead - 0xE0)
    else if 0xF0 ≤ lead ∧ lead < 0xF8 then some (4, lead - 0xF0)
    else none
  let (bytes, r) ← readEscapedBytes width cs
  let trailing := bytes.drop 1
  if trailing.all fun b => 0x80 ≤ b && b < 0xC0 then
    let code := trailing.foldl (fun v b => 64 * v + (b - 0x80)) value
    pure (← charOfCode? code, r)
  else none

/-- The characters of a tag from here on, its escapes read. -/
def readTagText (closed : Bool) : Nat → Cursor → Option (List Char × Cursor)
  | 0, _ => none
  | bound + 1, c =>
    match c.rest with
    | [] => some ([], c)
    | ch :: _ =>
      if ch = '%' then do
        let (e, r) ← readTagEscape c.rest
        let (more, c) ← readTagText closed bound (c.advance (c.rest.length - r.length))
        pure (e :: more, c)
      else if isTagChar closed ch then do
        let (more, c) ← readTagText closed bound (c.advance 1)
        pure (ch :: more, c)
      else some ([], c)

/-- A tag handle: `!`, or a word between two of these; a lone `!` may have a word behind it that
belongs to the tag itself. -/
def readTagHandle (c : Cursor) : Option (List Char × Cursor) :=
  if c.rest.head? = some '!' then
    let (word, c) := (c.advance 1).span isWord
    if c.rest.head? = some '!' then some ('!' :: word ++ ['!'], c.advance 1)
    else some ('!' :: word, c)
  else none

/-- A tag: `!<text>`, `!handle!text`, `!text`, or a lone `!`, which is all suffix. -/
def readTag (c : Cursor) : Option (Token × Cursor) := do
  let bound := c.rest.length + 1
  if (c.rest.drop 1).head? = some '<' then
    let (text, c) ← readTagText true bound (c.advance 2)
    if text.isEmpty ∨ c.rest.head? ≠ some '>' then none
    else pure (.tag [] text, c.advance 1)
  else
    let (handle, c) ← readTagHandle c
    let (text, c) ← readTagText false bound c
    if 1 < handle.length ∧ handle.getLast? = some '!' then
      if text.isEmpty then none else pure (.tag handle text, c)
    else
      let suffix := handle.drop 1 ++ text
      pure (if suffix.isEmpty then .tag [] ['!'] else .tag ['!'] suffix, c)

/-- A directive, up to the end of its line. -/
def readDirective (c : Cursor) : Option (Token × Cursor) := do
  let (name, c) := (c.advance 1).span isWord
  if name.isEmpty ∨ !endsWord c.rest then none
  let c := c.skipWhile isSpacing
  let (t, c) ←
    if name = "YAML".toList then do
      let (major, c) ← readNumber c
      if c.rest.head? ≠ some '.' then none
      let (minor, c) ← readNumber (c.advance 1)
      pure (Token.version major minor, c)
    else if name = "TAG".toList then do
      let (handle, c) ← readTagHandle c
      if handle ≠ ['!'] ∧ handle.getLast? ≠ some '!' then none
      if !c.rest.head?.any isSpacing then none
      let c := c.skipWhile isSpacing
      let (start, c) ← readTagText true (c.rest.length + 1) c
      if start.isEmpty ∨ !endsWord c.rest then none
      pure (Token.tagDirective handle start, c)
    else none
  let c := (c.skipWhile isSpacing).skipComment
  if endsLine c.rest then pure (t, c.skipBreak) else none

/-- The name of an anchor or an alias; some marks may stand right behind it. -/
def readAnchorName (c : Cursor) : Option (List Char × Cursor) :=
  let (name, c) := (c.advance 1).span isWord
  if name.isEmpty then none
  else if endsWord c.rest ∨ c.rest.head?.any ("?:,]\x7d%@`".toList.contains ·) then some (name, c)
  else none

/-! ### Steps -/

/-- Passes over blanks, comments and line breaks. A tab counts as a blank where no simple key may
stand, and in flow collections. -/
def skipToToken : Nat → Lexer → Option Lexer
  | 0, _ => none
  | bound + 1, l =>
    let c := l.cursor
    let c := if c.index = 0 ∧ c.rest.head? = some '\ufeff' then c.advance 1 else c
    let c := c.skipWhile fun ch => ch == ' ' || (ch == '\t' && (l.inFlow || !l.keyAllowed))
    match c.skipComment.lineBreak? with
    | some (_, next) =>
      skipToToken bound { l with cursor := next, keyAllowed := l.keyAllowed || !l.inFlow }
    | none => some (l.moveTo c.skipComment)

/-- Closes everything at the end of a document or of the text. -/
def closeDocument (l : Lexer) : Option Lexer := do
  pure ((← (l.closeBlocks (-1)).dropKey).allowKey false)

/-- A mark that opens a flow collection. -/
def openFlow (t : Token) (l : Lexer) : Option Lexer := do
  let l ← l.saveKey
  pure <| { l with flowLevel := l.flowLevel + 1, pending := none :: l.pending }
    |>.allowKey true |>.emitMark t

/-- A mark that closes a flow collection. -/
def closeFlow (t : Token) (l : Lexer) : Option Lexer := do
  let l ← l.dropKey
  let l :=
    if l.inFlow then { l with flowLevel := l.flowLevel - 1, pending := l.pending.drop 1 } else l
  pure (l.allowKey false |>.emitMark t)

/-- The mark `-` of an entry. -/
def blockEntry (l : Lexer) : Option Lexer := do
  if !l.inFlow && !l.keyAllowed then none
  let l ← (l.openBlock l.cursor.column none .blockSequence).dropKey
  pure (l.allowKey true |>.emitMark .blockEntry)

/-- The mark `?` of a key. -/
def explicitKey (l : Lexer) : Option Lexer := do
  if !l.inFlow && !l.keyAllowed then none
  let l ← (l.openBlock l.cursor.column none .blockMapping).dropKey
  pure (l.allowKey (!l.inFlow) |>.emitMark .key)

/-- The mark `:` of a value. It makes a possible simple key a key. -/
def mappingValue (l : Lexer) : Option Lexer :=
  match l.pending with
  | some k :: ks =>
    let l := { l.insert k.position .key with pending := none :: ks }
    some (l.openBlock k.place.column (some k.position) .blockMapping |>.allowKey false
      |>.emitMark .value)
  | _ =>
    if !l.inFlow && !l.keyAllowed then none
    else
      let l := l.openBlock l.cursor.column none .blockMapping
      some (l.allowKey (!l.inFlow) |>.emitMark .value)

/-- A token that may be a simple key, read from the text. -/
def property (read : Cursor → Option (Token × Cursor)) (l : Lexer) : Option Lexer := do
  let l ← l.saveKey
  let (t, c) ← read l.cursor
  pure (l.allowKey false |>.emit t |>.moveTo c)

/-- A block scalar. -/
def blockScalar (literal : Bool) (l : Lexer) : Option Lexer := do
  let l ← l.dropKey
  let (text, c) ← readBlock literal l.indent l.cursor
  pure (l.allowKey true |>.emit (.scalar text false) |>.moveTo c)

/-- A plain scalar; behind a line break a simple key may follow. -/
def plainScalar (l : Lexer) : Option Lexer := do
  let l ← l.saveKey
  let (text, broken, c) ← readPlain l.inFlow l.indent l.cursor
  pure (l.allowKey broken |>.emit (.scalar text true) |>.moveTo c)

/-- A character that no plain scalar starts with, unless what follows says otherwise. -/
def isIndicator (c : Char) : Bool :=
  "-?:,[]\x7b\x7d#&*!|>'\"%@`".toList.contains c

/-- Whether a plain scalar starts with a character and the text behind it. -/
def startsPlain (inFlow : Bool) (c : Char) (behind : List Char) : Bool :=
  !(isGap c || isIndicator c) ||
    (c == '-' && !behind.head?.any isSpacing) ||
    (!inFlow && (c == '?' || c == ':') && !endsWord behind)

/-- The next token, from its first character on. -/
def token (l : Lexer) : Option Lexer :=
  let c := l.cursor
  match c.rest with
  | [] => do
    let l := l.moveTo { c with column := 0, line := if c.column = 0 then c.line else c.line + 1 }
    pure ((← l.closeDocument).emit .streamEnd)
  | ch :: behind =>
    let spaced := endsWord behind
    if c.column = 0 ∧ ch = '%' then do
      let l ← l.closeDocument
      let (t, c) ← readDirective l.cursor
      pure (l.emit t |>.moveTo c)
    else if c.atMark ['-', '-', '-'] then do
      pure ((← l.closeDocument).emit .documentStart |>.moveTo (c.advance 3))
    else if c.atMark ['.', '.', '.'] then do
      pure ((← l.closeDocument).emit .documentEnd |>.moveTo (c.advance 3))
    else if ch = '[' then l.openFlow .flowSequence
    else if ch = '\x7b' then l.openFlow .flowMapping
    else if ch = ']' then l.closeFlow .flowSequenceEnd
    else if ch = '\x7d' then l.closeFlow .flowMappingEnd
    else if ch = ',' then do
      pure ((← l.dropKey).allowKey true |>.emitMark .flowEntry)
    else if ch = '-' ∧ spaced then l.blockEntry
    else if ch = '?' ∧ (l.inFlow ∨ spaced) then l.explicitKey
    else if ch = ':' ∧ (l.inFlow ∨ spaced) then l.mappingValue
    else if ch = '*' then l.property fun c => (readAnchorName c).map fun (n, c) => (.aliasOf n, c)
    else if ch = '&' then l.property fun c => (readAnchorName c).map fun (n, c) => (.anchor n, c)
    else if ch = '!' then
      l.property fun c => do
        let (t, c) ← readTag c
        if endsWord c.rest ∨ (l.inFlow ∧ c.rest.head? = some ',') then pure (t, c) else none
    else if ch = '|' ∧ !l.inFlow then l.blockScalar true
    else if ch = '>' ∧ !l.inFlow then l.blockScalar false
    else if ch = '\'' ∨ ch = '"' then
      l.property fun c => (readQuoted (ch = '\'') c).map fun (text, c) => (.scalar text false, c)
    else if startsPlain l.inFlow ch behind then l.plainScalar
    else none

/-- The next token, behind blanks, comments and line breaks. -/
def step (l : Lexer) : Option Lexer := do
  let l ← l.skipToToken (l.cursor.rest.length + 1)
  let l ← l.dropStaleKeys
  (l.closeBlocks l.cursor.column).token

/-- Steps until the end of the text. -/
def run : Nat → Lexer → Option Lexer
  | 0, _ => none
  | bound + 1, l => do
    let l ← l.step
    if l.tokens.head? = some .streamEnd then pure l else run bound l

end Lexer

/-- The tokens of a text; a byte order mark may stand before it. -/
def Token.ofText? (cs : List Char) : Option (List Token) := do
  let cs := if cs.head? = some '\ufeff' then cs.drop 1 else cs
  if !cs.all isAllowed then none
  let l ← (Lexer.ofText cs).run (cs.length + 2)
  pure l.tokens.reverse

end Foundry.Yaml
