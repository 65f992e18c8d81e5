import Foundry.Decimal.Shortest

/-!
# Spelling of numbers

How a number is spelled once its shortest digits are known. A `Spelling` is the list of a format's
choices: which values are written positionally, whether a positive exponent carries a sign, what
stands for a value that has no digits. Three formats occur: `literal` for C++ source, `yaml` for
YAML text and everything that quotes it, `json` for JSON text.
-/

namespace Foundry.Decimal

/-- A format for numbers. Values from `10 ^ (least - 1)` up to `10 ^ greatest` are positional. -/
structure Spelling where
  tie : Tie
  least : Int
  greatest : Int
  signedExponent : Bool
  nan : String
  infinity : String

namespace Spelling

/-- C++ literals: `1e-5` and smaller, `1e16` and greater have an exponent, and a tie rounds up. -/
def literal : Spelling := ⟨.up, -3, 16, false, "nan", "inf"⟩

/-- YAML text: `1e-6` and smaller, `1e16` and greater have an exponent. -/
def yaml : Spelling := ⟨.toEven, -4, 16, false, ".nan", ".inf"⟩

/-- JSON text: as in YAML, with a sign on every exponent. It has no word for other values. -/
def json : Spelling := ⟨.toEven, -4, 16, true, "null", "null"⟩

/-- Digits `ds` with the point at place `k`: behind the first `k` digits. -/
def positional (ds : List Char) (k : Int) : List Char :=
  if k ≤ 0 then '0' :: '.' :: (List.replicate (-k).toNat '0' ++ ds)
  else if ds.length ≤ k.toNat then
    ds ++ List.replicate (k.toNat - ds.length) '0' ++ ['.', '0']
  else ds.take k.toNat ++ '.' :: ds.drop k.toNat

/-- Digits `ds` with one digit before the point, if there are more behind, and the exponent. -/
def scientific (form : Spelling) (ds : List Char) (k : Int) : List Char :=
  let exponent := k - 1
  let sign := if exponent < 0 then ['-'] else if form.signedExponent then ['+'] else []
  let rest := ds.drop 1
  ds.take 1 ++ (if rest.isEmpty then [] else '.' :: rest) ++
    'e' :: (sign ++ Nat.toDigits 10 exponent.natAbs)

/-- The digits of a finite number other than zero, in a format. -/
def spellDigits (form : Spelling) (d : Digits) : List Char :=
  let ds := Nat.toDigits 10 d.digits
  let k := d.exponent + ds.length
  if form.least ≤ k ∧ k ≤ form.greatest then positional ds k else form.scientific ds k

/-- A number in a format. -/
def spell (form : Spelling) : Binary64 → String
  | .nan => form.nan
  | .infinity negative => (if negative then "-" else "") ++ form.infinity
  | .finite negative m e _ =>
    let magnitude := if m = 0 then ['0', '.', '0'] else form.spellDigits (shortest form.tie m e)
    String.ofList ((if negative then ['-'] else []) ++ magnitude)

end Spelling

end Foundry.Decimal
