import Foundry.Decimal.Numeral
import Foundry.Text.Affix
import Foundry.Yaml.Character
import Foundry.Yaml.Node

/-!
# What plain scalars mean

A plain scalar is null, a truth value, an integer, a floating-point number or, failing these, a
string.

* Integers are decimal, or hexadecimal, octal or binary behind `0x`, `0o` and `0b`, with an optional
  sign. They have 64 bits. One that has more, but not more than 128, is refused; beyond that it is
  none.
* Digits behind a leading zero are a string, with or without a sign.
* Floating-point numbers are numerals with a finite value, or `.inf` and `.nan` in three spellings.
-/

namespace Foundry.Yaml

open Foundry.Decimal Foundry.Text

-- A power with a natural exponent is the repeated product.
attribute [local instance (high)] instPowNat

/-- Whether a text is a word for null; the empty text is none. -/
def isNullWord (cs : List Char) : Bool :=
  ["~", "null", "Null", "NULL"].contains (String.ofList cs)

/-- The truth value that a text is a word for. -/
def boolWord? (cs : List Char) : Option Bool :=
  let s := String.ofList cs
  if ["true", "True", "TRUE"].contains s then some true
  else if ["false", "False", "FALSE"].contains s then some false
  else none

/-- Whether a text is digits behind a leading zero, with at most one sign before them. -/
def isZeroPadded (cs : List Char) : Bool :=
  match (spanSign cs).2 with
  | '0' :: d :: r => (d :: r).all Char.isDigit
  | _ => false

/-- The value of a digit in a base up to sixteen. -/
def digitValue? (base : Nat) (c : Char) : Option Nat :=
  (hexValue? c).filter (· < base)

/-- The value of digits in a base; there has to be one. -/
def natOfBase? (base : Nat) (ds : List Char) : Option Nat :=
  if ds.isEmpty then none
  else (ds.mapM (digitValue? base)).map fun vs => vs.foldl (base * · + ·) 0

/-- The value of an integer without a sign: digits of the base that its start names. -/
def magnitude? (cs : List Char) : Option Nat :=
  match cs with
  | '0' :: 'x' :: r => natOfBase? 16 r
  | '0' :: 'o' :: r => natOfBase? 8 r
  | '0' :: 'b' :: r => natOfBase? 2 r
  | _ => natOfBase? 10 cs

/-- What a text is as an integer. -/
inductive IntegerReading where
  | integer (i : Int)
  | tooWide
  | other

/-- Reads an integer with an optional sign. -/
def readInteger (cs : List Char) : IntegerReading :=
  if isZeroPadded cs then .other
  else
    let (sign, digits) := spanSign cs
    match magnitude? digits with
    | none => .other
    | some n =>
      if sign = some '-' then
        if n ≤ 2 ^ (63 : Nat) then .integer (-(n : Int))
        else if n ≤ 2 ^ (127 : Nat) then .tooWide
        else .other
      else if n < 2 ^ (64 : Nat) then .integer n
      else if n < 2 ^ (128 : Nat) then .tooWide
      else .other

/-- Reads a floating-point number. -/
def readFloat? (cs : List Char) : Option Binary64 :=
  let s := String.ofList cs
  let unsigned := String.ofList (dropOptional '+' cs)
  if [".inf", ".Inf", ".INF"].contains unsigned then some (.infinity false)
  else if ["-.inf", "-.Inf", "-.INF"].contains s then some (.infinity true)
  else if [".nan", ".NaN", ".NAN"].contains s then some .nan
  else
    match Numeral.ofText? cs with
    | some n => if n.value.isFinite then some n.value else none
    | none => none

/-- What a plain scalar means; an integer of too many bits means nothing. -/
def plainNode? (cs : List Char) : Option Node :=
  if cs.isEmpty ∨ isNullWord cs then some .null
  else
    match boolWord? cs with
    | some b => some (.bool b)
    | none =>
      match readInteger cs with
      | .integer i => some (.int i)
      | .tooWide => none
      | .other =>
        match if isZeroPadded cs then none else readFloat? cs with
        | some x => some (.float x)
        | none => some (.str (String.ofList cs))

end Foundry.Yaml
