import Foundry.Decimal.Numeral
import Foundry.Parameter.Error
import Foundry.Parameter.Unit
import Foundry.Yaml.Node

/-!
# Scalar parameter types

The types a parameter may have, apart from vectors: `string`, nine integer types, `double`, `float`,
`boolean` and `time`. For each, how a YAML value is read (`IntegerType.read`, `readFloat`,
`readBoolean`, `readTime`) and how it is written as a C++ literal (`Scalar.literal`).

Reading looks through tags. A string is read from its trimmed start and what follows the number is
its unit; a number without a unit letter is taken as it is.
-/

namespace Foundry.Parameter

open Foundry.Decimal Foundry.Text Foundry.Yaml

-- A power with a natural exponent is the repeated product.
attribute [local instance (high)] instPowNat

/-! ### Integers -/

/-- The integer types. -/
inductive IntegerType where
  | integer
  | int8
  | int16
  | int32
  | int64
  | uint8
  | uint16
  | uint32
  | uint64
  deriving DecidableEq

namespace IntegerType

/-- Every integer type, in order of declaration. -/
def all : List IntegerType :=
  [integer, int8, int16, int32, int64, uint8, uint16, uint32, uint64]

/-- The name in descriptors. -/
def name : IntegerType → String
  | integer => "integer"
  | int8 => "int8"
  | int16 => "int16"
  | int32 => "int32"
  | int64 => "int64"
  | uint8 => "uint8"
  | uint16 => "uint16"
  | uint32 => "uint32"
  | uint64 => "uint64"

/-- The type in C++. -/
def ccType : IntegerType → String
  | integer => "int"
  | t => t.name ++ "_t"

/-- The width in bits. -/
def bits : IntegerType → Nat
  | int8 | uint8 => 8
  | int16 | uint16 => 16
  | integer | int32 | uint32 => 32
  | int64 | uint64 => 64

/-- Whether the type has negative values. -/
def isSigned : IntegerType → Bool
  | uint8 | uint16 | uint32 | uint64 => false
  | _ => true

/-- The least value. -/
def min (t : IntegerType) : Int :=
  if t.isSigned then -2 ^ (t.bits - 1) else 0

/-- The greatest value. -/
def max (t : IntegerType) : Int :=
  if t.isSigned then 2 ^ (t.bits - 1) - 1 else 2 ^ t.bits - 1

end IntegerType

/-- The greatest run of digits that counts as an integer at all. -/
def greatestMagnitude : Nat := 2 ^ (127 : Nat) - 1

/-- The integer that a text starts with, after blanks and an optional sign, and what follows it. -/
def leadingInteger? (cs : List Char) : Option (Int × List Char) :=
  let (sign, unsigned) := spanSign (trim cs)
  let (digits, rest) := spanDigits unsigned
  let magnitude := natOfDigits digits
  if digits.isEmpty ∨ greatestMagnitude < magnitude then none
  else some (if sign = some '-' then -(magnitude : Int) else magnitude, rest)

namespace IntegerType

/-- Refuses a value that does not fit. -/
def check (t : IntegerType) (n : Node) (i : Int) : Except ConversionError Int :=
  if t.min ≤ i ∧ i ≤ t.max then .ok i
  else .error (.outOfRange n.describe t.name t.min t.max)

/-- The integer that a value denotes: itself, or the start of a string with its size letter. -/
def read (t : IntegerType) (n : Node) : Except ConversionError Int :=
  match n.bare with
  | .int i => t.check n i
  | .str s =>
    match leadingInteger? s.toList with
    | some (i, rest) => t.check n (i * sizeFactor rest.head?)
    | none => .error (.invalid s t.name .noLeadingInteger)
  | _ => .error (.invalid n.describe t.name .notAnInteger)

end IntegerType

/-! ### Floating point, booleans, time -/

/-- The number that a text starts with, after blanks, and what follows it. -/
def leadingNumber? (cs : List Char) : Option (Binary64 × List Char) :=
  (Numeral.scan (trim cs)).map fun (n, rest) => (n.value, rest)

/-- The finite number that a value denotes: itself, or the start of a string with its size
letter. -/
def readFloat (target : String) (n : Node) : Except ConversionError Binary64 := do
  let x ← match n.bare with
    | .int i => pure (Binary64.ofInt i)
    | .float x => pure x
    | .str s =>
      match leadingNumber? s.toList with
      | some (x, rest) => pure (x.scale (10 * sizePower rest.head?))
      | none => .error (.invalid s target .noLeadingNumber)
    | _ => .error (.invalid n.describe target .notANumber)
  if x.isFinite then pure x else .error (.invalid n.describe target .notFinite)

/-- The truth value that a value denotes: itself, or one of the words `true`, `1`, `false`, `0`, in
any case and with any blanks around it. -/
def readBoolean (n : Node) : Except ConversionError Bool :=
  let refused := .error (.invalid n.describe "boolean" .notABoolean)
  let ofWord (w : String) : Except ConversionError Bool :=
    if w = "true" ∨ w = "1" then .ok true
    else if w = "false" ∨ w = "0" then .ok false
    else refused
  match n.bare with
  | .bool b => .ok b
  | .str s => ofWord (String.ofList ((trim s.toList).map Char.toLower))
  | .int i => ofWord (toString i)
  | _ => refused

/-- The magnitude and the unit that a value denotes; without a known unit these are picoseconds. -/
def readTime (n : Node) : Except ConversionError (Binary64 × TimeUnit) :=
  match n.bare with
  | .int i => .ok (Binary64.ofInt i, .ps)
  | .float x => .ok (x, .ps)
  | .str s =>
    match leadingNumber? s.toList with
    | some (x, rest) => .ok (x, (TimeUnit.ofSuffix? rest).getD .ps)
    | none => .error (.invalid s "time" .noLeadingNumber)
  | _ => .error (.invalid n.describe "time" .notATime)

/-! ### Literals -/

/-- The scalar types. -/
inductive Scalar where
  | string
  | integer (t : IntegerType)
  | double
  | float
  | boolean
  | time
  deriving DecidableEq

/-- A magnitude in a constructor call: an integer below `10 ^ 15` has no point. -/
def magnitudeLiteral (x : Binary64) : String :=
  match x.toInt? with
  | some i => if i.natAbs < 10 ^ (15 : Nat) then toString i else Spelling.literal.spell x
  | none => Spelling.literal.spell x

namespace Scalar

/-- Every scalar type, in order of declaration. -/
def all : List Scalar :=
  .string :: IntegerType.all.map .integer ++ [.double, .float, .boolean, .time]

/-- The name in descriptors. -/
def name : Scalar → String
  | string => "string"
  | integer t => t.name
  | double => "double"
  | float => "float"
  | boolean => "boolean"
  | time => "time"

/-- The type in C++. -/
def ccType : Scalar → String
  | string => "std::string"
  | integer t => t.ccType
  | double => "double"
  | float => "float"
  | boolean => "bool"
  | time => "sc_core::sc_time"

/-- The literal of a string: any scalar's text between quotes; null has none. -/
def stringLiteral (n : Node) : Except ConversionError String :=
  let quote (text : String) := "\"" ++ text ++ "\""
  match n.bare with
  | .null => .ok (quote "")
  | .seq _ | .map _ => .error (.invalid n.describe "string" .notAScalar)
  | scalar => .ok (quote (scalar.text?.getD ""))

/-- The literal of a floating-point number. An integer without a tag stays one: C++ widens it. -/
def floatLiteral (target : String) (n : Node) : Except ConversionError String :=
  match n with
  | .int i => .ok (toString i)
  | _ => (readFloat target n).map Spelling.literal.spell

/-- The literal of a time. -/
def timeLiteral (n : Node) : Except ConversionError String := do
  let (x, unit) ← readTime n
  if x.isFinite then
    pure ("sc_core::sc_time(" ++ magnitudeLiteral x ++ ", " ++ unit.enumerator ++ ")")
  else .error (.invalid n.describe "time" .notFinite)

/-- The C++ literal that a value becomes. -/
def literal : Scalar → Node → Except ConversionError String
  | string, n => stringLiteral n
  | integer t, n => (t.read n).map toString
  | double, n => floatLiteral "double" n
  | float, n => floatLiteral "float" n
  | boolean, n => (readBoolean n).map fun b => if b then "true" else "false"
  | time, n => timeLiteral n

end Scalar

end Foundry.Parameter
