import Foundry.Yaml.Plain

/-!
# Styles of scalars

A string is written plain, between single or double quotes, or as a literal block. `Style.of`
chooses: a string of several lines is a literal block; one that would read back as something else is
quoted; any other is plain. Where the characters of the string rule a style out, double quotes stand
in, in which every character has an escape or stands for itself.
-/

namespace Foundry.Yaml

/-- A character that stands for itself in any style. -/
def isPrintable (c : Char) : Bool :=
  c == '\n' || (' ' ≤ c && c ≤ '~') || ('\xa0' ≤ c && c.toNat ≤ 0xD7FF) ||
    (0xE000 ≤ c.toNat && c.toNat ≤ 0xFFFD && c.toNat != 0xFEFF) || 0x10000 ≤ c.toNat

/-- The ways to write a string. -/
inductive Style where
  | plain
  | singleQuoted
  | doubleQuoted
  | literal
  deriving DecidableEq

/-! ### What a string rules out -/

/-- Whether a character with one property is followed by one with another. -/
def hasPair (p q : Char → Bool) : List Char → Bool
  | c :: d :: r => (p c && q d) || hasPair p q (d :: r)
  | _ => false

/-- Whether a text starts with a mark that plain scalars do not start with. -/
def startsLikeMark : List Char → Bool
  | [] => false
  | c :: r =>
    "#,[]\x7b\x7d&*!|>'\"%@`".toList.contains c ||
      ("?:-".toList.contains c && endsWord r) ||
      c == '-' && r.take 2 == ['-', '-'] || c == '.' && r.take 2 == ['.', '.']

/-- Whether a text holds a `:` that ends a word. -/
def hasValueMark : List Char → Bool
  | [] => false
  | c :: r => (c == ':' && endsWord r) || hasValueMark r

/-- A space or a break. -/
def isPadding (c : Char) : Bool :=
  c == ' ' || isBreak c

/-- Whether a text starts or ends with padding. -/
def isPadded (s : List Char) : Bool :=
  s.head?.any isPadding || s.getLast?.any isPadding

/-- Whether only double quotes can hold a text: some character needs an escape, or a space stands
before a break. -/
def needsEscapes (s : List Char) : Bool :=
  s.any (!isPrintable ·) || hasPair (· == ' ') isBreak s

/-- Whether a text may be plain: nothing in it looks like a mark or gets lost. -/
def fitsPlain (s : List Char) : Bool :=
  !(needsEscapes s || isPadded s || s.any isBreak || startsLikeMark s || hasValueMark s ||
    hasPair isGap (· == '#') s)

/-- Whether a text may stand between single quotes: no space stands beside a break. -/
def fitsSingleQuotes (s : List Char) : Bool :=
  !(needsEscapes s || hasPair isBreak (· == ' ') s)

/-- Whether a text may be a literal block. -/
def fitsLiteral (s : List Char) : Bool :=
  !(needsEscapes s || s.getLast? == some ' ')

/-- Whether a string reads back as something else when it is plain; digits behind a leading zero
count, since other readers take them for a number. -/
def isAmbiguous (s : List Char) : Bool :=
  match plainNode? s with
  | some (.str _) => isZeroPadded s
  | _ => true

/-- The style of a string. -/
def Style.of (s : List Char) : Style :=
  if s.contains '\n' then if fitsLiteral s then literal else doubleQuoted
  else if fitsPlain s && !isAmbiguous s then plain
  else if fitsSingleQuotes s then singleQuoted
  else doubleQuoted

/-! ### Writing -/

/-- The digits of a number in base sixteen, filled up to a width. -/
def hexDigits (width n : Nat) : List Char :=
  let ds := (Nat.toDigits 16 n).map Char.toUpper
  List.replicate (width - ds.length) '0' ++ ds

/-- A character that has a letter of its own behind the backslash. -/
def shortEscapes : List (Char × Char) :=
  [('\x00', '0'), ('\x07', 'a'), ('\x08', 'b'), ('\t', 't'), ('\n', 'n'), ('\x0b', 'v'),
   ('\x0c', 'f'), ('\r', 'r'), ('\x1b', 'e'), ('"', '"'), ('\\', '\\'), ('\x85', 'N'),
   ('\u2028', 'L'), ('\u2029', 'P')]

/-- A character between double quotes. -/
def escape (c : Char) : List Char :=
  match shortEscapes.lookup c with
  | some letter => ['\\', letter]
  | none =>
    if isPrintable c then [c]
    else if c.toNat ≤ 0xFF then '\\' :: 'x' :: hexDigits 2 c.toNat
    else if c.toNat ≤ 0xFFFF then '\\' :: 'u' :: hexDigits 4 c.toNat
    else '\\' :: 'U' :: hexDigits 8 c.toNat

/-- Spaces at the start of a line. -/
def indentation (indent : Nat) : List Char :=
  List.replicate indent ' '

/-- A text whose lines are indented, apart from empty ones; `fresh` says that a line has just
begun. Each character is written by `write`. -/
def indentLines (write : Char → List Char) (indent : Nat) : Bool → List Char → List Char
  | _, [] => []
  | fresh, c :: r =>
    if isBreak c then c :: indentLines write indent true r
    else (if fresh then indentation indent else []) ++ write c ++ indentLines write indent false r

/-- A text between single quotes; breaks in it begin lines. -/
def singleQuote (indent : Nat) (s : List Char) : List Char :=
  let doubled (c : Char) : List Char := if c = '\'' then [c, c] else [c]
  let closing := if s.getLast?.any isBreak then indentation indent else []
  '\'' :: (indentLines doubled indent false s ++ closing ++ ['\''])

/-- A text between double quotes. -/
def doubleQuote (s : List Char) : List Char :=
  '"' :: (s.flatMap escape ++ ['"'])

/-- What stands behind the `|` of a literal block: the indentation, where the text hides it, and
what becomes of the breaks at its end. -/
def literalHints (s : List Char) : List Char :=
  let hint := if s.head?.any isPadding then ['2'] else []
  let chomping := match s.reverse with
    | c :: before =>
      if !isBreak c then ['-'] else if before.head?.all isBreak then ['+'] else []
    | [] => ['-']
  hint ++ chomping

/-- A text as a literal block. -/
def literalBlock (indent : Nat) (s : List Char) : List Char :=
  '|' :: (literalHints s ++ '\n' :: indentLines (fun c => [c]) indent true s)

/-- A string in its style; `indent` is that of further lines. -/
def spellString (indent : Nat) (s : List Char) : List Char :=
  match Style.of s with
  | .plain => s
  | .singleQuoted => singleQuote indent s
  | .doubleQuoted => doubleQuote s
  | .literal => literalBlock indent s

/-! ### Small laws -/

end Foundry.Yaml
