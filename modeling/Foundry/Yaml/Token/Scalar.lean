import Foundry.Yaml.Cursor

/-!
# Scalars in YAML text

Reading the three kinds of scalar from a place in a text. All of them fold line breaks: between
words a single break is a blank, and of several the first is dropped.

* Block scalars (`readBlock`) take the lines that are indented far enough. Literal ones keep their
  breaks; folded ones keep those next to lines that start with a blank. A chomping mark says what
  becomes of the breaks at the end.
* Quoted scalars (`readQuoted`) end at their quote. A single quote is written twice inside single
  quotes; double quotes hold escapes.
* Plain scalars (`readPlain`) end where the line says that something else begins, or at a line that
  is not indented far enough.

The recursive readers take a bound on the number of their steps, which the length of the text
satisfies.
-/

namespace Foundry.Yaml

/-! ### Gaps -/

/-- Blanks and breaks between words. Blanks on the line of the word before are kept unless a break
follows; the breaks are kept in order. -/
structure Gap where
  blanks : List Char
  breaks : List Char
  broken : Bool

/-- What line breaks between words read as. -/
def foldBreaks : List Char → List Char
  | [] => []
  | '\n' :: [] => [' ']
  | '\n' :: more => more
  | breaks => breaks

/-- What a gap reads as. -/
def Gap.text (g : Gap) : List Char :=
  if g.broken then foldBreaks g.breaks else g.blanks

/-- Passes over blanks and breaks. A tab may stand before column `indent` of a later line only where
`tabs` says so. -/
def readGap (tabs : Bool) (indent : Nat) : Nat → Gap → Cursor → Option (Gap × Cursor)
  | 0, _, _ => none
  | bound + 1, g, c =>
    match c.lineBreak? with
    | some (b, next) =>
      readGap tabs indent bound ⟨g.blanks, g.breaks ++ [b], true⟩ next
    | none =>
      match c.rest.head? with
      | some ch =>
        if isSpacing ch then
          if g.broken then
            if ch == '\t' && !tabs && c.column < indent then none
            else readGap tabs indent bound g (c.advance 1)
          else readGap tabs indent bound { g with blanks := g.blanks ++ [ch] } (c.advance 1)
        else some (g, c)
      | none => some (g, c)

/-! ### Block scalars -/

/-- What becomes of the line breaks at the end of a block scalar. -/
inductive Chomp where
  | strip
  | clip
  | keep
  deriving DecidableEq

/-- The marks behind the mark of a block scalar: chomping and indentation, in either order. -/
def readBlockHeader (c : Cursor) : Option (Chomp × Option Nat × Cursor) :=
  let chomp? (c : Cursor) : Option (Chomp × Cursor) :=
    match c.rest.head? with
    | some '+' => some (.keep, c.advance 1)
    | some '-' => some (.strip, c.advance 1)
    | _ => none
  let digit? (c : Cursor) : Option (Nat × Cursor) :=
    match c.rest.head? with
    | some d => if d.isDigit then some (d.toNat - '0'.toNat, c.advance 1) else none
    | none => none
  let (chomp, width, c) := match chomp? c with
    | some (chomp, c) =>
      match digit? c with
      | some (width, c) => (chomp, some width, c)
      | none => (chomp, none, c)
    | none =>
      match digit? c with
      | some (width, c) =>
        match chomp? c with
        | some (chomp, c) => (chomp, some width, c)
        | none => (.clip, some width, c)
      | none => (.clip, none, c)
  if width = some 0 then none
  else
    let c := (c.skipWhile isSpacing).skipComment
    if endsLine c.rest then some (chomp, width, c.skipBreak) else none

/-- Passes over indentation and empty lines: up to column `indent`, or over all spaces while it is
not known. Yields the breaks and the greatest column that was reached. -/
def readEmptyLines (indent : Option Nat) :
    Nat → List Char → Nat → Cursor → Option (List Char × Nat × Cursor)
  | 0, _, _, _ => none
  | bound + 1, breaks, widest, c =>
    let spaces := (c.rest.takeWhile (· == ' ')).length
    let c := c.advance (indent.elim spaces fun i => min spaces (i - c.column))
    let widest := max widest c.column
    if c.rest.head? = some '\t' ∧ indent.all (c.column < ·) then none
    else
      match c.lineBreak? with
      | some (b, c) => readEmptyLines indent bound (breaks ++ [b]) widest c
      | none => some (breaks, widest, c)

/-- The lines of a block scalar, from the start of one. `text` is what was read before, backwards;
`last` is the break behind it, and `breaks` those of the empty lines after that. -/
def readBlockLines (literal : Bool) (indent : Nat) : Nat → (text last breaks : List Char) →
    (blankBefore : Bool) → Cursor → Option (List Char × List Char × List Char × Cursor)
  | 0, _, _, _, _, _ => none
  | bound + 1, text, last, breaks, blankBefore, c =>
    if c.column = indent ∧ c.rest ≠ [] then
      let blankHere := c.rest.head?.any isSpacing
      let folds := !literal && last == ['\n'] && !blankBefore && !blankHere
      let between := (if folds then (if breaks.isEmpty then [' '] else []) else last) ++ breaks
      let (line, c) := c.span (!isBreak ·)
      let (last, c) := match c.lineBreak? with
        | some (b, c) => ([b], c)
        | none => ([], c)
      match readEmptyLines (some indent) bound [] 0 c with
      | some (breaks, _, c) =>
        readBlockLines literal indent bound (line.reverse ++ (between.reverse ++ text)) last breaks
          blankHere c
      | none => none
    else some (text.reverse, last, breaks, c)

/-- The block scalar whose mark stands here, in a block that is indented to column `parent`. -/
def readBlock (literal : Bool) (parent : Int) (c : Cursor) : Option (List Char × Cursor) := do
  let bound := c.rest.length + 1
  let (chomp, width, c) ← readBlockHeader (c.advance 1)
  let known := width.map fun w => (if 0 ≤ parent then parent.toNat + w else w)
  let (breaks, widest, c) ← readEmptyLines known bound [] 0 c
  let indent := known.getD (max widest (max (parent + 1).toNat 1))
  let (text, last, breaks, c) ← readBlockLines literal indent bound [] [] breaks false c
  pure <| match chomp with
    | .strip => (text, c)
    | .clip => (text ++ last, c)
    | .keep => (text ++ last ++ breaks, c)

/-! ### Quoted scalars -/

/-- The escapes of one letter. -/
def escapes : List (Char × Char) :=
  [('0', '\x00'), ('a', '\x07'), ('b', '\x08'), ('t', '\t'), ('\t', '\t'), ('n', '\n'),
   ('v', '\x0b'), ('f', '\x0c'), ('r', '\r'), ('e', '\x1b'), (' ', ' '), ('"', '"'), ('/', '/'),
   ('\\', '\\'), ('N', '\x85'), ('_', '\xa0'), ('L', '\u2028'), ('P', '\u2029')]

/-- The number of hexadecimal digits behind an escape letter. -/
def escapeWidth? : Char → Option Nat
  | 'x' => some 2
  | 'u' => some 4
  | 'U' => some 8
  | _ => none

/-- The character with a code, unless the code is none of a character. -/
def charOfCode? (code : Nat) : Option Char :=
  if code.isValidChar then some (Char.ofNat code) else none

/-- The character that an escape stands for, and the number of characters behind the backslash that
it takes. -/
def unescape? : List Char → Option (Char × Nat)
  | [] => none
  | letter :: r =>
    match escapeWidth? letter with
    | some width => do
      let digits ← (r.take width).mapM hexValue?
      if digits.length = width then
        pure (← charOfCode? (digits.foldl (16 * · + ·) 0), width + 1)
      else none
    | none => (escapes.lookup letter).map (·, 1)

/-- The word of a quoted scalar from here on, put before `text`, which runs backwards. Yields
whether it ended at an escaped line break, which is passed over. -/
def readQuotedWord (single : Bool) : Nat → List Char → Cursor → Option (List Char × Bool × Cursor)
  | 0, _, _ => none
  | bound + 1, text, c =>
    match c.rest with
    | [] => some (text, false, c)
    | ch :: r =>
      if isGap ch then some (text, false, c)
      else if single then
        if ch = '\'' then
          if r.head? = some '\'' then readQuotedWord single bound ('\'' :: text) (c.advance 2)
          else some (text, false, c)
        else readQuotedWord single bound (ch :: text) (c.advance 1)
      else if ch = '"' then some (text, false, c)
      else if ch = '\\' then
        if r.head?.any isBreak then some (text, true, (c.advance 1).skipBreak)
        else
          match unescape? r with
          | some (e, n) => readQuotedWord single bound (e :: text) (c.advance (n + 1))
          | none => none
      else readQuotedWord single bound (ch :: text) (c.advance 1)

/-- The words of a quoted scalar, up to its quote. -/
def readQuotedWords (single : Bool) : Nat → List Char → Cursor → Option (List Char × Cursor)
  | 0, _, _ => none
  | bound + 1, text, c =>
    if c.atDocumentMark ∨ c.rest = [] then none
    else
      match readQuotedWord single (c.rest.length + 1) text c with
      | none => none
      | some (text, escaped, c) =>
        if c.rest.head? = some (if single then '\'' else '"') then some (text.reverse, c.advance 1)
        else
          match readGap true 0 (c.rest.length + 1) ⟨[], [], escaped⟩ c with
          | none => none
          | some (g, c) =>
            let folded := if escaped then g.breaks else g.text
            readQuotedWords single bound (folded.reverse ++ text) c

/-- The quoted scalar whose quote stands here. -/
def readQuoted (single : Bool) (c : Cursor) : Option (List Char × Cursor) :=
  readQuotedWords single (c.rest.length + 1) [] (c.advance 1)

/-! ### Plain scalars -/

/-- The word of a plain scalar at the start of a text. In a flow collection some marks end it, and a
`:` before one of them is refused. -/
def plainWord? (flow : Bool) : List Char → Option (List Char)
  | [] => some []
  | c :: r =>
    if isGap c then some []
    else if flow && c == ':' && r.head?.any (fun d => isFlowMark d || d == '?') then none
    else if (c == ':' && endsWord r) || (flow && isFlowMark c) then some []
    else (plainWord? flow r).map (c :: ·)

/-- The words of a plain scalar, from the start of one; `text` is what was read before, backwards.
Yields whether a line break follows the last word. -/
def readPlainWords (flow : Bool) (indent : Nat) :
    Nat → (text gap : List Char) → Bool → Cursor → Option (List Char × Bool × Cursor)
  | 0, _, _, _, _ => none
  | bound + 1, text, gap, broken, c =>
    if c.atDocumentMark ∨ c.rest.head? = some '#' then some (text.reverse, broken, c)
    else
      match plainWord? flow c.rest with
      | none => none
      | some [] => some (text.reverse, broken, c)
      | some word =>
        let text := word.reverse ++ (gap.reverse ++ text)
        let c := c.advance word.length
        if c.rest.head?.any isGap then
          match readGap false indent (c.rest.length + 1) ⟨[], [], false⟩ c with
          | none => none
          | some (g, c) =>
            if !flow && c.column < indent then some (text.reverse, g.broken, c)
            else readPlainWords flow indent bound text g.text g.broken c
        else some (text.reverse, false, c)

/-- The plain scalar that starts here, in a block that is indented to column `parent`. -/
def readPlain (flow : Bool) (parent : Int) (c : Cursor) : Option (List Char × Bool × Cursor) :=
  readPlainWords flow (parent + 1).toNat (c.rest.length + 1) [] [] false c

/-! ### Small laws -/

end Foundry.Yaml
