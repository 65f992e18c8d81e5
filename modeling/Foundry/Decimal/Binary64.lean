/-!
# 64-bit binary floating-point numbers

A finite number is a significand times a power of two. `FiniteValid` makes the pair unique: the
significand fills all 53 bits unless the exponent is the least one.

`ofRatio` rounds an exact quotient to the nearest number, a tie going to the even significand, and
`ofDecimal` does so for a decimal `digits * 10 ^ exponent`. All arithmetic is on natural numbers.

* `pack_of_valid`: a significand and exponent within bounds are packed as they are.
-/

namespace Foundry.Decimal

-- A power with a natural exponent is the repeated product.
attribute [local instance (high)] instPowNat

/-- The significand and exponent of a finite number, in their unique form. -/
structure FiniteValid (significand : Nat) (exponent : Int) : Prop where
  lt : significand < 2 ^ (53 : Nat)
  least_le : -1074 ≤ exponent
  le_greatest : exponent ≤ 971
  norm : 2 ^ (52 : Nat) ≤ significand ∨ exponent = -1074

instance (significand : Nat) (exponent : Int) : Decidable (FiniteValid significand exponent) :=
  decidable_of_iff (significand < 2 ^ (53 : Nat) ∧ -1074 ≤ exponent ∧ exponent ≤ 971 ∧
      (2 ^ (52 : Nat) ≤ significand ∨ exponent = -1074))
    ⟨fun ⟨a, b, c, d⟩ => ⟨a, b, c, d⟩, fun ⟨a, b, c, d⟩ => ⟨a, b, c, d⟩⟩

/-- A 64-bit binary floating-point number; there is one `nan`, and zero has a sign. -/
inductive Binary64 where
  | nan
  | infinity (negative : Bool)
  | finite (negative : Bool) (significand : Nat) (exponent : Int)
      (valid : FiniteValid significand exponent)
  deriving DecidableEq

namespace Binary64

instance : Inhabited Binary64 := ⟨.nan⟩

/-! ### Rounding -/

/-- The integer nearest to `num / den`, a tie going to the even one. -/
def roundDiv (num den : Nat) : Nat :=
  let q := num / den
  let twice := 2 * (num % den)
  if twice < den then q
  else if den < twice then q + 1
  else if q % 2 = 0 then q else q + 1

/-- A number from its parts: beyond the greatest exponent it is infinite. -/
def pack (negative : Bool) (significand : Nat) (exponent : Int) : Binary64 :=
  if h : FiniteValid significand exponent then .finite negative significand exponent h
  else .infinity negative

/-- Zero, with a sign. -/
def zero (negative : Bool) : Binary64 := pack negative 0 (-1074)

/-- `num / den * 2 ^ -shift`, rounded to an integer; a negative shift multiplies. -/
def roundScaled (num den : Nat) (shift : Int) : Nat :=
  roundDiv (num * 2 ^ (-shift).toNat) (den * 2 ^ shift.toNat)

/-- The exponent at which the quotient `num / den` has 53 significant bits, or the least one. -/
def exponentOf (num den : Nat) : Int :=
  let guess : Int := (num.log2 : Int) - den.log2 - 52
  let fits := den * 2 ^ (guess + 52).toNat ≤ num * 2 ^ (-(guess + 52)).toNat
  max (if fits then guess else guess - 1) (-1074)

/-- The number nearest to `num / den`, a tie going to the even significand. -/
def ofRatio (negative : Bool) (num den : Nat) : Binary64 :=
  if num = 0 then zero negative
  else
    let e := exponentOf num den
    let m := roundScaled num den e
    if m < 2 ^ (53 : Nat) then pack negative m e else pack negative (2 ^ (52 : Nat)) (e + 1)

/-- The number nearest to an integer. -/
def ofInt (i : Int) : Binary64 :=
  ofRatio (i < 0) i.natAbs 1

/-- The number nearest to the decimal `digits * 10 ^ exponent`. A decimal far outside the range is
settled by its size alone: at `10 ^ 310` and beyond it is infinite, below `10 ^ -330` it is zero. -/
def ofDecimal (negative : Bool) (digits : Nat) (exponent : Int) : Binary64 :=
  if digits = 0 then zero negative
  else
    let size : Int := (Nat.toDigits 10 digits).length + exponent
    if 311 ≤ size then .infinity negative
    else if size ≤ -330 then zero negative
    else ofRatio negative (digits * 10 ^ exponent.toNat) (10 ^ (-exponent).toNat)

/-! ### Tests and views -/

def isFinite : Binary64 → Bool
  | finite .. => true
  | _ => false

/-- Numerical equality, with `nan` equal to itself and the two zeros equal. -/
def same : Binary64 → Binary64 → Bool
  | nan, nan => true
  | infinity s, infinity t => s == t
  | finite s m e _, finite t n f _ => m == n && e == f && (s == t || m == 0)
  | _, _ => false

/-- The number times `2 ^ k`, rounded; an infinity and `nan` stay. -/
def scale (k : Nat) : Binary64 → Binary64
  | finite s m e _ => ofRatio s (m * 2 ^ (e + k).toNat) (2 ^ (-(e + k)).toNat)
  | x => x

/-- The value when it is an integer. -/
def toInt? : Binary64 → Option Int
  | finite s m e _ =>
    let num := m * 2 ^ e.toNat
    let den := 2 ^ (-e).toNat
    if num % den = 0 then
      let n : Int := (num / den : Nat)
      some (if s then -n else n)
    else none
  | _ => none

/-! ### Small laws -/

theorem pack_of_valid {s : Bool} {m : Nat} {e : Int} (h : FiniteValid m e) :
    pack s m e = .finite s m e h := by
  simp [pack, h]

@[simp]
theorem same_self (x : Binary64) : x.same x = true := by
  cases x <;> simp [same]

theorem same_comm (x y : Binary64) : x.same y = y.same x := by
  cases x <;> cases y <;> simp only [same]
  · exact Bool.beq_comm
  · rename_i s m e _ t n f _
    rw [Bool.beq_comm (a := s), Bool.beq_comm (a := e), Bool.beq_comm (a := m)]
    by_cases hm : n = m
    · rw [hm]
    · have : (n == m) = false := beq_eq_false_iff_ne.2 hm
      simp only [this, Bool.false_and]

end Binary64

end Foundry.Decimal
