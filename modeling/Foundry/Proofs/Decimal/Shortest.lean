import Foundry.Decimal.Shortest
import Mathlib.Algebra.Order.Field.Power
import Mathlib.Algebra.Order.Field.Rat
import Mathlib.Data.Nat.Cast.Order.Field
import Mathlib.Data.Nat.Cast.Order.Ring
import Mathlib.Order.Compare
import Mathlib.Tactic.FieldSimp
import Mathlib.Tactic.Linarith
import Mathlib.Tactic.Positivity
import Mathlib.Tactic.Ring

/-!
# Shortest digits tell numbers apart

The decimals that read back to one number fill an interval around it, and the intervals of different
numbers have no decimal in common: where two of them meet, one of the significands is odd and its
interval does not have the end. The shortest digits of a number always lie in its interval, since 17
digits are enough for any number. So they belong to no other number.

* `compareDecimal_eq`, `readsBack_iff`: comparisons as comparisons of rational numbers.
* `eq_of_readsBack`: a decimal reads back to one number only.
* `candidate_ne_none`: a fine decimal grid has a point in the interval of a number.
* `value_shortest_inj`: two numbers with shortest digits of one value are equal.
-/

namespace Foundry.Decimal

variable {m n c c' : Nat} {e f p p' : Int}

/-- The decimal `c * 10 ^ p`. -/
def decimalValue (c : Nat) (p : Int) : ℚ :=
  c * 10 ^ p

/-- The number `m * 2 ^ e`. -/
def binaryValue (m : Nat) (e : Int) : ℚ :=
  m * 2 ^ e

theorem zpow_mul_pow_toNat {b : ℚ} (hb : b ≠ 0) (p : Int) :
    b ^ p * b ^ (-p).toNat = b ^ p.toNat := by
  rw [← zpow_natCast, ← zpow_natCast, ← zpow_add₀ hb]
  congr 1
  omega

/-- The comparison in integers is that of the exact values. -/
theorem compareDecimal_eq (a : Nat) (p : Int) (b : Nat) (q : Int) :
    compareDecimal a p b q = cmp (decimalValue a p) (binaryValue b q) := by
  have hpos : (0 : ℚ) < 10 ^ (-p).toNat * 2 ^ (-q).toNat := by positivity
  have ha : ((a * 10 ^ p.toNat * 2 ^ (-q).toNat : Nat) : ℚ) =
      decimalValue a p * (10 ^ (-p).toNat * 2 ^ (-q).toNat) := by
    push_cast
    rw [← zpow_mul_pow_toNat (by norm_num : (10 : ℚ) ≠ 0) p, decimalValue]
    ring
  have hb : ((b * 2 ^ q.toNat * 10 ^ (-p).toNat : Nat) : ℚ) =
      binaryValue b q * (10 ^ (-p).toNat * 2 ^ (-q).toNat) := by
    push_cast
    rw [← zpow_mul_pow_toNat (by norm_num : (2 : ℚ) ≠ 0) q, binaryValue]
    ring
  -- Both sides are made integers by the same powers.
  rw [compareDecimal, ← cmp_eq_compare, ← (Nat.strictMono_cast (α := ℚ)).cmp_map_eq, ha, hb,
    cmp_mul_pos_right hpos]

theorem compareDecimal_eq_gt_iff {a b : Nat} {q : Int} :
    compareDecimal a p b q = .gt ↔ binaryValue b q < decimalValue a p := by
  rw [compareDecimal_eq, cmp_eq_gt_iff]

theorem compareDecimal_eq_eq_iff {a b : Nat} {q : Int} :
    compareDecimal a p b q = .eq ↔ decimalValue a p = binaryValue b q := by
  rw [compareDecimal_eq, cmp_eq_eq_iff]

theorem compareDecimal_eq_lt_iff {a b : Nat} {q : Int} :
    compareDecimal a p b q = .lt ↔ decimalValue a p < binaryValue b q := by
  rw [compareDecimal_eq, cmp_eq_lt_iff]

/-! ### Intervals -/

/-- Four times the significand at the lower end of the interval of a number. -/
def lowerEnd (m : Nat) (e : Int) : Nat :=
  if m = 2 ^ (52 : Nat) ∧ -1074 < e then 4 * m - 1 else 4 * m - 2

/-- Digits read back to a number if they lie between the ends around it; an end belongs to the
number with the even digits. -/
theorem readsBack_iff :
    readsBack m e c p = true ↔
      (binaryValue (lowerEnd m e) (e - 2) < decimalValue c p ∨
        decimalValue c p = binaryValue (lowerEnd m e) (e - 2) ∧ m % 2 = 0) ∧
      (decimalValue c p < binaryValue (4 * m + 2) (e - 2) ∨
        decimalValue c p = binaryValue (4 * m + 2) (e - 2) ∧ m % 2 = 0) := by
  simp only [readsBack, Bool.and_eq_true, Bool.or_eq_true, beq_iff_eq,
    compareDecimal_eq_gt_iff, compareDecimal_eq_eq_iff, compareDecimal_eq_lt_iff]
  rfl

theorem binaryValue_mul_pow (b d : Nat) (e : Int) :
    binaryValue (b * 2 ^ d) e = binaryValue b (e + d) := by
  rw [binaryValue, binaryValue, zpow_add₀ (by norm_num), zpow_natCast]
  push_cast
  ring

theorem binaryValue_le_iff {b b' : Nat} : binaryValue b e ≤ binaryValue b' e ↔ b ≤ b' := by
  have hpos : (0 : ℚ) < 2 ^ e := by positivity
  rw [binaryValue, binaryValue, mul_le_mul_iff_left₀ hpos, Nat.cast_le]

theorem binaryValue_inj {b b' : Nat} : binaryValue b e = binaryValue b' e ↔ b = b' := by
  simp only [le_antisymm_iff, binaryValue_le_iff]

/-- Of two numbers, the interval of the smaller one ends no later than that of the other begins. At
a common end, one of the intervals is open. -/
theorem upperEnd_le_lowerEnd {d : Nat} (hm : FiniteValid m e) (hn : FiniteValid n (e + d))
    (hlt : m < n ∨ 0 < d) :
    4 * m + 2 ≤ lowerEnd n (e + d) * 2 ^ d ∧
      (4 * m + 2 = lowerEnd n (e + d) * 2 ^ d → m % 2 = 1 ∨ n % 2 = 1) := by
  have hm53 := hm.lt
  have hleast := hm.least_le
  rcases Nat.eq_zero_or_pos d with rfl | hd
  · rw [pow_zero, mul_one, lowerEnd]
    split <;> omega
  · -- The exponent is not the least one, so the significand is at least 2 ^ 52.
    have hn52 : 2 ^ (52 : Nat) ≤ n := hn.norm.resolve_right (by omega)
    have htwo : lowerEnd n (e + d) * 2 ≤ lowerEnd n (e + d) * 2 ^ d :=
      Nat.mul_le_mul_left _ (Nat.le_self_pow (by omega) 2)
    generalize lowerEnd n (e + d) * 2 ^ d = scaled at htwo ⊢
    rw [lowerEnd] at htwo
    split at htwo <;> omega

/-- No decimal reads back to two numbers with different exponents or significands in order. -/
theorem not_readsBack_both {d : Nat} (hm : FiniteValid m e) (hn : FiniteValid n (e + d))
    (hlt : m < n ∨ 0 < d) (hc : readsBack m e c p = true)
    (hc' : readsBack n (e + d) c' p' = true) : decimalValue c p ≠ decimalValue c' p' := by
  intro h
  obtain ⟨hle, hodd⟩ := upperEnd_le_lowerEnd hm hn hlt
  have hlower : binaryValue (lowerEnd n (e + d)) (e + d - 2) =
      binaryValue (lowerEnd n (e + d) * 2 ^ d) (e - 2) := by
    rw [binaryValue_mul_pow]
    congr 1
    omega
  rw [readsBack_iff] at hc hc'
  rw [hlower, ← h] at hc'
  rw [← binaryValue_le_iff (e := e - 2)] at hle
  rcases hc.2 with hupper | ⟨hupper, hmeven⟩
  · rcases hc'.1 with hend | ⟨hend, _⟩ <;> linarith
  · rcases hc'.1 with hend | ⟨hend, hneven⟩
    · linarith
    · have := hodd (binaryValue_inj.1 (hupper.symm.trans hend))
      omega

/-- **One decimal reads back to one number.** -/
theorem eq_of_readsBack (hm : FiniteValid m e) (hn : FiniteValid n f)
    (hc : readsBack m e c p = true) (hc' : readsBack n f c' p' = true)
    (h : decimalValue c p = decimalValue c' p') : m = n ∧ e = f := by
  wlog hef : e < f ∨ e = f ∧ m ≤ n generalizing m n e f c c' p p'
  · obtain ⟨rfl, rfl⟩ := this hn hm hc' hc h.symm (by omega)
    exact ⟨rfl, rfl⟩
  obtain ⟨d, rfl⟩ := Int.le.dest (show e ≤ f by omega)
  by_contra hne
  exact not_readsBack_both hm hn (by omega) hc hc' h

/-! ### The fewest digits -/

/-- A number is not smaller than the first one with as many digits. -/
theorem pow_decimalLength_le {q : Nat} (hq : 0 < q) : 10 ^ (decimalLength q - 1) ≤ q := by
  rcases Nat.eq_zero_or_pos (decimalLength q - 1) with hzero | hpos
  · rw [hzero, pow_zero]
    exact hq
  · by_contra hlt
    have hlength := (Nat.length_toDigits_le_iff (by norm_num) hpos).2 (not_le.1 hlt)
    rw [decimalLength] at hlength hpos
    omega

/-- A number is smaller than the first one with more digits. -/
theorem lt_pow_decimalLength (q : Nat) : q < 10 ^ decimalLength q :=
  (Nat.length_toDigits_le_iff (by norm_num) Nat.length_toDigits_pos).1 (le_refl _)

theorem binaryValue_eq_div (m : Nat) (e : Int) :
    binaryValue m e = ((m * 2 ^ e.toNat : Nat) : ℚ) / (2 ^ (-e).toNat : Nat) := by
  rw [eq_div_iff (by positivity), binaryValue]
  push_cast
  rw [← zpow_mul_pow_toNat (by norm_num : (2 : ℚ) ≠ 0) e]
  ring

theorem zpow_decimalLength_le {num den : Nat} (hden : 0 < den) (h : den ≤ num) :
    (10 : ℚ) ^ ((decimalLength (num / den) : Int) - 1) ≤ (num : ℚ) / den := by
  have hlength : 0 < decimalLength (num / den) := Nat.length_toDigits_pos
  have hexponent : (decimalLength (num / den) : Int) - 1 =
      (decimalLength (num / den) - 1 : Nat) := by
    omega
  rw [hexponent, zpow_natCast]
  calc (10 : ℚ) ^ (decimalLength (num / den) - 1)
      = ((10 ^ (decimalLength (num / den) - 1) : Nat) : ℚ) := by push_cast; rfl
    _ ≤ ((num / den : Nat) : ℚ) :=
        Nat.cast_le.2 (pow_decimalLength_le (Nat.div_pos h hden))
    _ ≤ (num : ℚ) / den := Nat.cast_div_le

theorem zpow_neg_decimalLength_le {num den : Nat} (hnum : 0 < num) (hden : 0 < den) :
    (10 : ℚ) ^ (-(decimalLength ((den + num - 1) / num - 1) : Int)) ≤ (num : ℚ) / den := by
  have hlt := lt_pow_decimalLength ((den + num - 1) / num - 1)
  generalize decimalLength ((den + num - 1) / num - 1) = length at hlt ⊢
  have hceil : den ≤ num * ((den + num - 1) / num) := by
    have := Nat.div_add_mod (den + num - 1) num
    have := Nat.mod_lt (den + num - 1) hnum
    omega
  have hden_le : den ≤ num * 10 ^ length :=
    le_trans hceil (Nat.mul_le_mul_left _ (by omega))
  have hcast : (den : ℚ) ≤ num * 10 ^ length := by exact_mod_cast hden_le
  rw [zpow_neg, zpow_natCast, inv_le_comm₀ (by positivity) (by positivity), inv_div,
    div_le_iff₀ (by positivity)]
  linarith

/-- The place of the point is not beyond the first digit. -/
theorem zpow_pointPlace_le (hm : 0 < m) : (10 : ℚ) ^ (pointPlace m e - 1) ≤ binaryValue m e := by
  rw [binaryValue_eq_div, pointPlace]
  split
  · rename_i hle
    exact zpow_decimalLength_le (by positivity) hle
  · rw [sub_sub_cancel_left]
    exact zpow_neg_decimalLength_le (by positivity) (by positivity)

/-- The number lies between its neighbours on a decimal grid. -/
theorem between_neighbours (m : Nat) (e p : Int) :
    let below := m * 2 ^ e.toNat * 10 ^ (-p).toNat / (2 ^ (-e).toNat * 10 ^ p.toNat)
    decimalValue below p ≤ binaryValue m e ∧ binaryValue m e < decimalValue (below + 1) p := by
  intro below
  have hscale : (0 : ℚ) < 2 ^ (-e).toNat * 10 ^ (-p).toNat := by positivity
  have hden : (0 : Nat) < 2 ^ (-e).toNat * 10 ^ p.toNat := by positivity
  have hvalue : binaryValue m e * (2 ^ (-e).toNat * 10 ^ (-p).toNat) =
      ((m * 2 ^ e.toNat * 10 ^ (-p).toNat : Nat) : ℚ) := by
    push_cast
    rw [← zpow_mul_pow_toNat (by norm_num : (2 : ℚ) ≠ 0) e, binaryValue]
    ring
  have hgrid : ∀ c : Nat, decimalValue c p * (2 ^ (-e).toNat * 10 ^ (-p).toNat) =
      ((c * (2 ^ (-e).toNat * 10 ^ p.toNat) : Nat) : ℚ) := by
    intro c
    push_cast
    rw [← zpow_mul_pow_toNat (by norm_num : (10 : ℚ) ≠ 0) p, decimalValue]
    ring
  constructor
  · rw [← mul_le_mul_iff_left₀ hscale, hvalue, hgrid, Nat.cast_le]
    exact Nat.div_mul_le_self _ _
  · rw [← mul_lt_mul_iff_left₀ hscale, hvalue, hgrid, Nat.cast_lt]
    exact (Nat.div_lt_iff_lt_mul hden).1 (Nat.lt_succ_self _)

theorem binaryValue_quarter (b : Nat) (e : Int) : binaryValue b (e - 2) = b * 2 ^ e / 4 := by
  rw [binaryValue, zpow_sub₀ (by norm_num)]
  norm_num
  ring

/-- The upper end is half a step above the number. -/
theorem upperEnd_eq (m : Nat) (e : Int) :
    binaryValue (4 * m + 2) (e - 2) = binaryValue m e + 2 ^ e / 2 := by
  rw [binaryValue_quarter, binaryValue]
  push_cast
  ring

/-- The interval reaches half a step down, but only a quarter at a power of two. -/
theorem lowerEnd_le (hpos : 0 < m) :
    binaryValue (lowerEnd m e) (e - 2) ≤ binaryValue m e - 2 ^ e / 4 ∧
      (m ≠ 2 ^ (52 : Nat) → binaryValue (lowerEnd m e) (e - 2) = binaryValue m e - 2 ^ e / 2) := by
  have hstep : (0 : ℚ) < 2 ^ e := by positivity
  rw [binaryValue_quarter, binaryValue, lowerEnd]
  split
  · rename_i hpower
    rw [Nat.cast_sub (by omega)]
    push_cast
    exact ⟨by linarith, fun hne => absurd hpower.1 hne⟩
  · rw [Nat.cast_sub (by omega)]
    push_cast
    exact ⟨by linarith, fun _ => by ring⟩

/-- **A fine grid has a candidate.** Its steps are shorter than the interval around the number. -/
theorem candidate_ne_none (tie : Tie) (hm : FiniteValid m e) (hpos : 0 < m)
    (hfine : 10 ^ (16 : Nat) * (10 : ℚ) ^ p ≤ binaryValue m e) :
    candidate tie m e p ≠ none := by
  intro hnone
  have hstep : (0 : ℚ) < 2 ^ e := by positivity
  obtain ⟨hbelow, habove⟩ := between_neighbours m e p
  obtain ⟨hquarter, hhalf⟩ := lowerEnd_le (e := e) hpos
  have hvalue : binaryValue m e < 2 ^ (53 : Nat) * 2 ^ e := by
    rw [binaryValue, mul_lt_mul_iff_left₀ hstep]
    exact_mod_cast hm.lt
  simp only [candidate] at hnone
  split at hnone
  · rename_i hnot_below hnot_above
    rw [← Bool.not_eq_true, readsBack_iff, upperEnd_eq] at hnot_below hnot_above
    generalize hc : m * 2 ^ e.toNat * 10 ^ (-p).toNat / (2 ^ (-e).toNat * 10 ^ p.toNat) = below at *
    have hneighbour : decimalValue (below + 1) p = decimalValue below p + 10 ^ p := by
      rw [decimalValue, decimalValue]
      push_cast
      ring
    -- The upper neighbour is above the interval, the lower one below it.
    have hbeyond : binaryValue m e + 2 ^ e / 2 ≤ decimalValue (below + 1) p := by
      by_contra hlt
      exact hnot_above ⟨Or.inl (by linarith), Or.inl (not_le.1 hlt)⟩
    have hshort : decimalValue below p ≤ binaryValue (lowerEnd m e) (e - 2) := by
      by_contra hlt
      exact hnot_below ⟨Or.inl (not_le.1 hlt), Or.inl (by linarith)⟩
    by_cases hpower : m = 2 ^ (52 : Nat)
    · have hvalue52 : binaryValue m e = 2 ^ (52 : Nat) * 2 ^ e := by
        rw [binaryValue, hpower]
        push_cast
        rfl
      norm_num at hvalue52 hfine
      linarith
    · have := hhalf hpower
      norm_num at hvalue hfine
      linarith
  · cases hnone
  · cases hnone
  · cases hnone

namespace Digits

/-- The value of a decimal. -/
def value (d : Digits) : ℚ :=
  decimalValue d.digits d.exponent

end Digits

/-- A candidate has the value of its digits, also where a carry adds one. -/
theorem value_of_candidate (c n : Nat) (k : Int) :
    (if c = 10 ^ n then ⟨1, k⟩ else ⟨c, k - n⟩ : Digits).value = decimalValue c (k - n) := by
  split
  · rename_i hc
    rw [Digits.value, decimalValue, decimalValue, hc, zpow_sub₀ (by norm_num), zpow_natCast]
    push_cast
    field_simp
  · rfl

/-- **The shortest digits read back.** -/
theorem exists_readsBack_shortest (tie : Tie) (hm : FiniteValid m e) (hpos : 0 < m) :
    ∃ c p, readsBack m e c p = true ∧ (shortest tie m e).value = decimalValue c p := by
  have hfine : 10 ^ (16 : Nat) * (10 : ℚ) ^ (pointPlace m e - (17 : Nat)) ≤ binaryValue m e := by
    refine le_trans (le_of_eq ?_) (zpow_pointPlace_le hpos)
    rw [← zpow_natCast, ← zpow_add₀ (by norm_num)]
    congr 1
    push_cast
    ring
  obtain ⟨c, hc⟩ := Option.ne_none_iff_exists'.1 (candidate_ne_none tie hm hpos hfine)
  unfold shortest
  dsimp only
  generalize hfound : List.findSome? _ (List.range' 1 17) = found
  cases found with
  | none =>
    rw [List.findSome?_eq_none_iff] at hfound
    have := hfound 17 (by decide)
    rw [hc] at this
    cases this
  | some d =>
    obtain ⟨n, _, hd⟩ := List.exists_of_findSome?_eq_some hfound
    obtain ⟨c', hc', rfl⟩ := Option.map_eq_some_iff.1 hd
    exact ⟨c', _, readsBack_of_candidate hc', value_of_candidate c' n _⟩

/-- The shortest digits of a number that is not zero are not zero. -/
theorem value_shortest_pos (tie : Tie) (hm : FiniteValid m e) (hpos : 0 < m) :
    0 < (shortest tie m e).value := by
  obtain ⟨c, p, hc, hvalue⟩ := exists_readsBack_shortest tie hm hpos
  have hlower : 0 < binaryValue (lowerEnd m e) (e - 2) := by
    have hend : 0 < lowerEnd m e := by
      rw [lowerEnd]
      split <;> omega
    rw [binaryValue]
    positivity
  rw [hvalue]
  rcases (readsBack_iff.1 hc).1 with h | ⟨h, _⟩ <;> linarith

/-- **The shortest digits tell numbers apart.** -/
theorem value_shortest_inj {tie tie' : Tie} (hm : FiniteValid m e) (hn : FiniteValid n f)
    (hmpos : 0 < m) (hnpos : 0 < n) (h : (shortest tie m e).value = (shortest tie' n f).value) :
    m = n ∧ e = f := by
  obtain ⟨c, p, hc, hvalue⟩ := exists_readsBack_shortest tie hm hmpos
  obtain ⟨c', p', hc', hvalue'⟩ := exists_readsBack_shortest tie' hn hnpos
  exact eq_of_readsBack hm hn hc hc' (hvalue.symm.trans (h.trans hvalue'))

end Foundry.Decimal
