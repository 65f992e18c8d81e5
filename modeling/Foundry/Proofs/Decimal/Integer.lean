import Foundry.Proofs.Decimal.Spelling

/-!
# Integers as floating-point numbers

An integer may be turned into the floating-point number nearest to it, and then it is written in
another way: with a point or an exponent, which the decimal digits of an integer never have.

* `isFinite_ofInt`: integers of 64 bits become finite numbers.
* `marks_int`, `marks_spell_pos`: what tells the two ways of writing apart.
-/

namespace Foundry.Decimal

-- A power with a natural exponent is the repeated product.
attribute [local instance (high)] instPowNat

namespace Binary64

variable {num : Nat} {m : Nat} {e : Int} {negative : Bool}

/-! ### From an integer -/

/-- The exponent of an integer leaves 53 bits. -/
theorem exponentOf_one (hnum : num ≠ 0) :
    exponentOf num 1 = max ((num.log2 : Int) - 52) (-1074) := by
  have hguess : (num.log2 : Int) - (1 : Nat).log2 - 52 = (num.log2 : Int) - 52 := by
    show (num.log2 : Int) - (0 : Nat) - 52 = _
    omega
  have hfits : 1 * 2 ^ ((num.log2 : Int) - 52 + 52).toNat ≤
      num * 2 ^ (-((num.log2 : Int) - 52 + 52)).toNat := by
    have hlog : ((num.log2 : Int) - 52 + 52).toNat = num.log2 := by omega
    have hneg : (-((num.log2 : Int) - 52 + 52)).toNat = 0 := by omega
    have hle : 2 ^ num.log2 ≤ num := Nat.log2_self_le hnum
    rw [hlog, hneg, Nat.one_mul, Nat.pow_zero, Nat.mul_one]
    exact hle
  unfold exponentOf
  dsimp only
  rw [hguess, if_pos hfits]

/-- Rounding goes down by less than one. -/
theorem le_roundDiv (num den : Nat) : num / den ≤ roundDiv num den := by
  unfold roundDiv
  dsimp only
  split_ifs <;> omega

/-- At the exponent of an integer its significand fills 53 bits. -/
theorem significand_le (hnum : num ≠ 0) :
    2 ^ (52 : Nat) * 2 ^ (num.log2 - 52) ≤ num * 2 ^ (52 - num.log2) := by
  have hle : 2 ^ num.log2 ≤ num := Nat.log2_self_le hnum
  rcases Nat.le_total num.log2 52 with h | h
  · have hpow : 2 ^ (52 : Nat) = 2 ^ num.log2 * 2 ^ (52 - num.log2) := by
      rw [← Nat.pow_add, Nat.add_sub_cancel' h]
    rw [Nat.sub_eq_zero_of_le h, Nat.pow_zero, Nat.mul_one, hpow]
    exact Nat.mul_le_mul_right _ hle
  · have hpow : 2 ^ (52 : Nat) * 2 ^ (num.log2 - 52) = 2 ^ num.log2 := by
      rw [← Nat.pow_add, Nat.add_sub_cancel' h]
    rw [Nat.sub_eq_zero_of_le h, Nat.pow_zero, Nat.mul_one, hpow]
    exact hle

theorem isFinite_pack (h : FiniteValid m e) : (pack negative m e).isFinite = true := by
  rw [pack_of_valid h]
  rfl

/-- An integer of 64 bits is far from the greatest number. -/
theorem isFinite_ofRatio_one (h : num < 2 ^ (64 : Nat)) :
    (ofRatio negative num 1).isFinite = true := by
  unfold ofRatio
  dsimp only
  split_ifs with hzero hround
  · exact isFinite_pack (by decide)
  all_goals
    have hlog : num.log2 < 64 := (Nat.log2_lt hzero).2 h
    have hexponent : exponentOf num 1 = (num.log2 : Int) - 52 := by
      rw [exponentOf_one hzero]
      omega
    rw [hexponent] at hround ⊢
  · have hfull : 2 ^ (52 : Nat) ≤ roundScaled num 1 ((num.log2 : Int) - 52) := by
      have hup : (-((num.log2 : Int) - 52)).toNat = 52 - num.log2 := by omega
      have hdown : ((num.log2 : Int) - 52).toNat = num.log2 - 52 := by omega
      rw [roundScaled, hup, hdown]
      refine Nat.le_trans ?_ (le_roundDiv _ _)
      rw [Nat.one_mul, Nat.le_div_iff_mul_le (Nat.two_pow_pos _)]
      exact significand_le hzero
    exact isFinite_pack ⟨hround, by omega, by omega, Or.inl hfull⟩
  · exact isFinite_pack ⟨by decide, by omega, by omega, Or.inl (Nat.le_refl _)⟩

/-- An integer of 64 bits is near to a finite number. -/
theorem isFinite_ofInt {i : Int} (h : i.natAbs < 2 ^ (64 : Nat)) : (ofInt i).isFinite = true :=
  isFinite_ofRatio_one h

end Binary64

/-! ### Points and exponents -/

/-- How many points and marks of exponents are in a text. -/
def marks (text : String) : Nat :=
  text.toList.countP fun c => c == '.' || c == 'e'

@[simp]
theorem marks_append (a b : String) : marks (a ++ b) = marks a + marks b := by
  rw [marks, String.toList_append, List.countP_append]
  rfl

/-- An integer is written with none. -/
theorem marks_int (i : Int) : marks (toString i) = 0 := by
  rw [marks, List.countP_eq_zero]
  intro c hc
  have hsign := sign_or_digit_of_mem_int hc
  intro hmark
  rw [Bool.or_eq_true, beq_iff_eq, beq_iff_eq] at hmark
  rcases hmark with rfl | rfl <;> exact absurd hsign (by decide)

/-- Digits are spelled with a point or an exponent, in either form. -/
theorem exists_mark_of_digits (form : Spelling) (d : Digits) :
    ∃ c ∈ form.spellDigits d, c = '.' ∨ c = 'e' := by
  unfold Spelling.spellDigits
  dsimp only
  split_ifs
  · refine ⟨'.', ?_, Or.inl rfl⟩
    unfold Spelling.positional
    split_ifs <;> simp
  · refine ⟨'e', ?_, Or.inr rfl⟩
    rw [Spelling.scientific]
    simp

/-- A finite floating-point number is written with one, in whatever format. -/
theorem marks_spell_pos (form : Spelling) {x : Binary64} (h : x.isFinite = true) :
    0 < marks (form.spell x) := by
  cases x with
  | nan => cases h
  | infinity negative => cases h
  | finite negative m e valid =>
    have hmark : ∃ c ∈ (if m = 0 then ['0', '.', '0'] else
        form.spellDigits (shortest form.tie m e)), c = '.' ∨ c = 'e' := by
      split_ifs
      · exact ⟨'.', by simp, Or.inl rfl⟩
      · exact exists_mark_of_digits form _
    obtain ⟨c, hc, hmark⟩ := hmark
    rw [marks, List.countP_pos_iff, Spelling.spell, String.toList_ofList]
    exact ⟨c, List.mem_append_right _ hc, by simpa using hmark⟩

end Foundry.Decimal
