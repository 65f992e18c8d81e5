/-!
# Character classes of YAML text

Line breaks are the carriage return, the line feed and three Unicode breaks; blanks are the space
and the tab. The end of the text counts as a break where a token has to end.
-/

namespace Foundry.Yaml

/-- A character that YAML text may hold. -/
def isAllowed (c : Char) : Bool :=
  c == '\t' || c == '\n' || c == '\r' || (' ' ≤ c && c ≤ '~') || c == '\x85' ||
    ('\xa0' ≤ c && c.toNat ≤ 0xFFFD) || 0x10000 ≤ c.toNat

/-- A line break. -/
def isBreak (c : Char) : Bool :=
  c == '\n' || c == '\r' || c == '\x85' || c == '\u2028' || c == '\u2029'

/-- A space or a tab. -/
def isSpacing (c : Char) : Bool :=
  c == ' ' || c == '\t'

/-- A blank or a break. -/
def isGap (c : Char) : Bool :=
  isSpacing c || isBreak c

/-- Whether a text has ended or goes on with a blank or a break. -/
def endsWord (cs : List Char) : Bool :=
  cs.head?.all isGap

/-- Whether a text has ended or goes on with a break. -/
def endsLine (cs : List Char) : Bool :=
  cs.head?.all isBreak

/-- A character of anchors, tag handles and directive names. -/
def isWord (c : Char) : Bool :=
  c.isAlphanum || c == '_' || c == '-'

/-- A character of tags; `,`, `[` and `]` only where the tag has a fixed end. -/
def isTagChar (closed : Bool) (c : Char) : Bool :=
  isWord c || ";/?:@&=+$.%!~*'()".toList.contains c || (closed && ",[]".toList.contains c)

/-- A character that separates or closes flow collections. -/
def isFlowMark (c : Char) : Bool :=
  ",[]\x7b\x7d".toList.contains c

/-- The value of a hexadecimal digit. -/
def hexValue? (c : Char) : Option Nat :=
  if c.isDigit then some (c.toNat - '0'.toNat)
  else if 'a' ≤ c ∧ c ≤ 'f' then some (c.toNat - 'a'.toNat + 10)
  else if 'A' ≤ c ∧ c ≤ 'F' then some (c.toNat - 'A'.toNat + 10)
  else none

end Foundry.Yaml
