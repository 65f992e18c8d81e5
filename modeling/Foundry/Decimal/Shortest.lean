import Foundry.Decimal.Binary64

/-!
# Shortest decimal digits

The decimals that read back to a number `m * 2 ^ e` fill an interval around it: half a step to
either side, the ends included when `m` is even, and a quarter step below at a power of two.

`shortest` looks for the coarsest decimal grid with a point in that interval. On each grid only the
value's two neighbours matter: a grid with any point inside has one of these inside. Of two
neighbours inside, the nearer one is taken, and a `Tie` says what happens halfway.

* `readsBack_of_candidate`: a candidate reads back to the number.
-/

namespace Foundry.Decimal

-- A power with a natural exponent is the repeated product.
attribute [local instance (high)] instPowNat

/-- What becomes of a value halfway between two decimals. -/
inductive Tie where
  | toEven
  | up
  deriving DecidableEq

/-- The decimal `digits * 10 ^ exponent`. -/
structure Digits where
  digits : Nat
  exponent : Int
  deriving DecidableEq

/-- The number of decimal digits of a natural number; zero has one. -/
def decimalLength (n : Nat) : Nat :=
  (Nat.toDigits 10 n).length

/-- Compares `a * 10 ^ p` with `b * 2 ^ q`, exactly. -/
def compareDecimal (a : Nat) (p : Int) (b : Nat) (q : Int) : Ordering :=
  compare (a * 10 ^ p.toNat * 2 ^ (-q).toNat) (b * 2 ^ q.toNat * 10 ^ (-p).toNat)

/-- Whether `c * 10 ^ p` reads back to the number `m * 2 ^ e`. -/
def readsBack (m : Nat) (e : Int) (c : Nat) (p : Int) : Bool :=
  let low := if m = 2 ^ (52 : Nat) ∧ -1074 < e then 4 * m - 1 else 4 * m - 2
  let isInside (side order : Ordering) : Bool := order == side || (order == .eq && m % 2 == 0)
  isInside .gt (compareDecimal c p low (e - 2)) &&
    isInside .lt (compareDecimal c p (4 * m + 2) (e - 2))

/-- The place `k` of the decimal point, with `10 ^ (k - 1) ≤ m * 2 ^ e < 10 ^ k`. -/
def pointPlace (m : Nat) (e : Int) : Int :=
  let num := m * 2 ^ e.toNat
  let den := 2 ^ (-e).toNat
  if den ≤ num then decimalLength (num / den)
  else 1 - decimalLength ((den + num - 1) / num - 1)

/-- The neighbour of `m * 2 ^ e` among the multiples of `10 ^ p` that reads back; the nearer one
where both do. -/
def candidate (tie : Tie) (m : Nat) (e p : Int) : Option Nat :=
  let num := m * 2 ^ e.toNat * 10 ^ (-p).toNat
  let den := 2 ^ (-e).toNat * 10 ^ p.toNat
  let below := num / den
  let above := below + 1
  match readsBack m e below p, readsBack m e above p with
  | false, false => none
  | true, false => some below
  | false, true => some above
  | true, true =>
    some <| match compare (2 * (num % den)) den, tie with
      | .lt, _ => below
      | .gt, _ => above
      | .eq, .toEven => if below % 2 = 0 then below else above
      | .eq, .up => above

/-- The fewest digits that read back to `m * 2 ^ e`; a candidate that fills up to `10 ^ n` is
written as a power of ten. -/
def shortest (tie : Tie) (m : Nat) (e : Int) : Digits :=
  let k := pointPlace m e
  let found := (List.range' 1 17).findSome? fun (n : Nat) =>
    (candidate tie m e (k - n)).map fun c =>
      if c = 10 ^ n then ⟨1, k⟩ else (⟨c, k - n⟩ : Digits)
  found.getD ⟨m, e⟩

theorem readsBack_of_candidate {tie : Tie} {m c : Nat} {e p : Int}
    (h : candidate tie m e p = some c) : readsBack m e c p = true := by
  simp only [candidate] at h
  split at h
  · simp at h
  · simp_all
  · simp_all
  · rename_i below above
    obtain rfl := Option.some.inj h
    split <;> (try split) <;> assumption

end Foundry.Decimal
