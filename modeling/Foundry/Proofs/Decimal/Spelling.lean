import Foundry.Decimal.Spelling
import Foundry.Proofs.Decimal.Numeral
import Foundry.Proofs.Decimal.Shortest

/-!
# Spelled numbers are told apart

What a finite number is spelled as is the text of a numeral, of the value of its digits. A numeral
is scanned from its text, and shortest digits tell numbers apart, so that in YAML no two numbers are
spelled alike, up to the sign of a zero. An integer is written without a point and without an
exponent, as no other number is.

* `Numeral.magnitude`, `magnitude_numeral`: the value of a numeral; spelling keeps it.
* `ofText?_spell_finite`, `ofText?_int`: what is scanned from the text of a number.
* `same_of_spell_eq`, `intNumeral_injective`: numbers with one text are the same.
-/

namespace Foundry.Decimal

variable {ds : List Char} {k : Int}

/-- Zeros behind the digits move the point and leave the value. -/
theorem decimalValue_mul_pow (c j : Nat) (p : Int) :
    decimalValue (c * 10 ^ j) p = decimalValue c (p + j) := by
  rw [decimalValue, decimalValue, zpow_add₀ (by norm_num), zpow_natCast]
  push_cast
  ring

/-- The exact value of a numeral, without its sign. -/
def Numeral.magnitude (n : Numeral) : ℚ :=
  decimalValue (natOfDigits (n.whole ++ n.fraction.getD []))
    (n.exponent.elim 0 Exponent.value - (n.fraction.getD []).length)

namespace Spelling

/-- The numeral of digits with the point at place `k`. -/
def positionalNumeral (ds : List Char) (k : Int) : Numeral :=
  if k ≤ 0 then ⟨none, ['0'], some (List.replicate (-k).toNat '0' ++ ds), none⟩
  else if ds.length ≤ k.toNat then
    ⟨none, ds ++ List.replicate (k.toNat - ds.length) '0', some ['0'], none⟩
  else ⟨none, ds.take k.toNat, some (ds.drop k.toNat), none⟩

/-- The exponent of digits with the point at place `k`, behind the first digit. -/
def scientificExponent (form : Spelling) (k : Int) : Exponent :=
  ⟨'e', if k - 1 < 0 then some '-' else if form.signedExponent then some '+' else none,
    Nat.toDigits 10 (k - 1).natAbs⟩

/-- The numeral of digits with one digit before the point. -/
def scientificNumeral (form : Spelling) (ds : List Char) (k : Int) : Numeral :=
  ⟨none, ds.take 1, if (ds.drop 1).isEmpty then none else some (ds.drop 1),
    some (form.scientificExponent k)⟩

/-- The numeral that decimal digits are spelled as. -/
def numeral (form : Spelling) (d : Digits) : Numeral :=
  let ds := Nat.toDigits 10 d.digits
  let k := d.exponent + ds.length
  if form.least ≤ k ∧ k ≤ form.greatest then positionalNumeral ds k
  else form.scientificNumeral ds k

theorem text_positionalNumeral (ds : List Char) (k : Int) :
    (positionalNumeral ds k).text = positional ds k := by
  unfold positionalNumeral positional
  split
  · simp [Numeral.text]
  · split <;> simp [Numeral.text]

theorem text_scientificNumeral (form : Spelling) (ds : List Char) (k : Int) :
    (form.scientificNumeral ds k).text = form.scientific ds k := by
  have hsign : (form.scientificExponent k).sign.toList =
      if k - 1 < 0 then ['-'] else if form.signedExponent then ['+'] else [] := by
    rw [scientificExponent]
    split
    · rfl
    · split <;> rfl
  unfold scientificNumeral scientific
  dsimp only [Numeral.text, Option.elim_some, Exponent.text]
  rw [hsign]
  split <;> simp [scientificExponent]

/-- What digits are spelled as is the text of a numeral, in either form. -/
theorem text_numeral (form : Spelling) (d : Digits) :
    (form.numeral d).text = form.spellDigits d := by
  unfold numeral spellDigits
  dsimp only
  split
  · exact text_positionalNumeral _ _
  · exact text_scientificNumeral form _ _

/-- Zeros may be put in front of the digits or behind them; there is always a digit on both sides of
the point. -/
theorem wellFormed_positionalNumeral (hds : ∀ d ∈ ds, d.isDigit = true) (hne : ds ≠ []) (k : Int) :
    (positionalNumeral ds k).WellFormed := by
  have hzeros : ∀ n, ∀ c ∈ List.replicate n '0', c.isDigit = true := fun n c =>
    isDigit_of_mem_replicate_zero
  unfold positionalNumeral
  split
  · exact {
      sign := nofun
      whole := by simp
      fraction := by
        rintro _ ⟨⟩ c hc
        exact (List.mem_append.1 hc).elim (hzeros _ c) (hds c)
      nonempty := by simp
      exponent := nofun }
  · split
    · exact {
        sign := nofun
        whole := fun c hc => (List.mem_append.1 hc).elim (hds c) (hzeros _ c)
        fraction := by
          rintro _ ⟨⟩
          simp
        nonempty := by simp
        exponent := nofun }
    · exact {
        sign := nofun
        whole := fun c hc => hds c (List.mem_of_mem_take hc)
        fraction := by
          rintro _ ⟨⟩ c hc
          exact hds c (List.mem_of_mem_drop hc)
        nonempty := by
          rw [Option.getD_some, List.take_append_drop]
          exact hne
        exponent := nofun }

theorem wellFormed_scientificExponent (form : Spelling) (k : Int) :
    (form.scientificExponent k).WellFormed where
  mark := Or.inl rfl
  sign := by
    intro c hc
    rw [scientificExponent] at hc
    split at hc
    · exact Or.inl (Option.some.inj hc).symm
    · split at hc
      · exact Or.inr (Option.some.inj hc).symm
      · cases hc
  digits c hc := isDigit_of_mem_toDigits hc
  nonempty := Nat.toDigits_ne_nil

theorem wellFormed_scientificNumeral (form : Spelling) (hds : ∀ d ∈ ds, d.isDigit = true)
    (hne : ds ≠ []) (k : Int) : (form.scientificNumeral ds k).WellFormed where
  sign := nofun
  whole c hc := hds c (List.mem_of_mem_take hc)
  fraction := by
    intro es hes c hc
    rw [scientificNumeral] at hes
    split at hes
    · cases hes
    · rw [← Option.some.inj hes] at hc
      exact hds c (List.mem_of_mem_drop hc)
  nonempty := by
    obtain ⟨d, ds, rfl⟩ := List.exists_cons_of_ne_nil hne
    simp [scientificNumeral]
  exponent := by
    rintro _ ⟨⟩
    exact wellFormed_scientificExponent form k

/-- A positional numeral has the value of its digits with the point at place `k`, however many zeros
it needs. -/
theorem magnitude_positionalNumeral (ds : List Char) (k : Int) :
    (positionalNumeral ds k).magnitude = decimalValue (natOfDigits ds) (k - ds.length) := by
  unfold positionalNumeral
  split
  · rename_i hk
    have hvalue :
        natOfDigits (['0'] ++ (List.replicate (-k).toNat '0' ++ ds)) = natOfDigits ds := by
      rw [natOfDigits_append, natOfDigits_append, natOfDigits_replicate_zero]
      simp [natOfDigits]
    -- Zeros in front of the digits add nothing to them; they only count as places behind the point.
    rw [Numeral.magnitude, Option.getD_some, hvalue, List.length_append, List.length_replicate]
    congr 1
    rw [Option.elim_none]
    omega
  · split
    · rename_i hk hlength
      have hvalue : natOfDigits (ds ++ List.replicate (k.toNat - ds.length) '0' ++ ['0']) =
          natOfDigits ds * 10 ^ (k.toNat - ds.length + 1) := by
        rw [← List.replicate_one, List.append_assoc, List.replicate_append_replicate,
          natOfDigits_append, natOfDigits_replicate_zero, List.length_replicate, Nat.add_zero]
      -- Each zero behind the digits is a factor of ten and takes the point one place on.
      rw [Numeral.magnitude, Option.getD_some, hvalue, decimalValue_mul_pow, Option.elim_none]
      congr 1
      rw [List.length_singleton]
      omega
    · rename_i hk hlength
      rw [Numeral.magnitude, Option.getD_some, List.take_append_drop, List.length_drop]
      congr 1
      rw [Option.elim_none]
      omega

/-- One digit stands before the point, so the exponent is one less than the place. -/
theorem value_scientificExponent (form : Spelling) (k : Int) :
    (form.scientificExponent k).value = k - 1 := by
  rw [Exponent.value, scientificExponent]
  dsimp only
  rw [natOfDigits_toDigits]
  split
  · rw [if_pos rfl]
    omega
  · split
    · rw [if_neg (by decide)]
      omega
    · rw [if_neg nofun]
      omega

theorem magnitude_scientificNumeral (form : Spelling) (hne : ds ≠ []) (k : Int) :
    (form.scientificNumeral ds k).magnitude = decimalValue (natOfDigits ds) (k - ds.length) := by
  have hfraction : (form.scientificNumeral ds k).fraction.getD [] = ds.drop 1 := by
    rw [scientificNumeral]
    split
    · rename_i hempty
      rw [Option.getD_none, List.isEmpty_iff.1 hempty]
    · rfl
  have hlength := List.length_pos_iff.2 hne
  rw [Numeral.magnitude, hfraction]
  show decimalValue (natOfDigits (ds.take 1 ++ ds.drop 1))
    ((form.scientificExponent k).value - (ds.drop 1).length) = _
  rw [List.take_append_drop, value_scientificExponent, List.length_drop]
  congr 1
  omega

/-- Whatever the form, digits are spelled as a numeral that can be scanned again. -/
theorem wellFormed_numeral (form : Spelling) (d : Digits) : (form.numeral d).WellFormed := by
  have hds : ∀ c ∈ Nat.toDigits 10 d.digits, c.isDigit = true := fun c => isDigit_of_mem_toDigits
  rw [numeral]
  split
  · exact wellFormed_positionalNumeral hds Nat.toDigits_ne_nil _
  · exact wellFormed_scientificNumeral form hds Nat.toDigits_ne_nil _

/-- **Spelling keeps the value.** -/
theorem magnitude_numeral (form : Spelling) (d : Digits) :
    (form.numeral d).magnitude = d.value := by
  have hplace : ∀ k : Int, k + (Nat.toDigits 10 d.digits).length -
      (Nat.toDigits 10 d.digits).length = k := by
    intro k
    omega
  rw [numeral]
  split
  · rw [magnitude_positionalNumeral, natOfDigits_toDigits, hplace, Digits.value]
  · rw [magnitude_scientificNumeral form Nat.toDigits_ne_nil, natOfDigits_toDigits, hplace,
      Digits.value]

/-! ### Numbers -/

end Spelling

namespace Numeral

/-- The numeral with a minus sign, or with none. -/
def signed (negative : Bool) (n : Numeral) : Numeral :=
  { n with sign := if negative then some '-' else none }

theorem text_signed {n : Numeral} (h : n.sign = none) (negative : Bool) :
    (n.signed negative).text = (if negative then ['-'] else []) ++ n.text := by
  rw [text, text, h]
  cases negative <;> rfl

theorem WellFormed.signed {n : Numeral} (h : n.WellFormed) (negative : Bool) :
    (n.signed negative).WellFormed where
  sign := by
    cases negative
    · exact nofun
    · rintro _ ⟨⟩
      exact Or.inl rfl
  whole := h.whole
  fraction := h.fraction
  nonempty := h.nonempty
  exponent := h.exponent

theorem magnitude_signed (n : Numeral) (negative : Bool) :
    (n.signed negative).magnitude = n.magnitude := rfl

/-- The numeral is an integer by its looks: it has no point and no exponent. -/
def Whole (n : Numeral) : Prop :=
  n.fraction = none ∧ n.exponent = none

end Numeral

namespace Spelling

/-- The numeral that a finite number without its sign is spelled as. -/
def magnitudeNumeral (form : Spelling) (m : Nat) (e : Int) : Numeral :=
  if m = 0 then positionalNumeral ['0'] 1 else form.numeral (shortest form.tie m e)

theorem sign_numeral (form : Spelling) (d : Digits) : (form.numeral d).sign = none := by
  unfold numeral positionalNumeral
  dsimp only
  split
  · split
    · rfl
    · split <;> rfl
  · rfl

/-- A spelled number has a point or an exponent, so it does not look like an integer. -/
theorem not_whole_numeral (form : Spelling) (d : Digits) : ¬ (form.numeral d).Whole := by
  rintro ⟨hfraction, hexponent⟩
  unfold numeral positionalNumeral at hfraction hexponent
  dsimp only at hfraction hexponent
  split at hfraction
  · split at hfraction
    · cases hfraction
    · split at hfraction <;> cases hfraction
  · rename_i hform
    rw [if_neg hform] at hexponent
    cases hexponent

variable {m n : Nat} {e f : Int} {negative negative' : Bool}

theorem sign_magnitudeNumeral (form : Spelling) (m : Nat) (e : Int) :
    (form.magnitudeNumeral m e).sign = none := by
  rw [magnitudeNumeral]
  split
  · rfl
  · exact sign_numeral form _

theorem not_whole_magnitudeNumeral (form : Spelling) (m : Nat) (e : Int) :
    ¬ (form.magnitudeNumeral m e).Whole := by
  rw [magnitudeNumeral]
  split
  · rintro ⟨⟨⟩, _⟩
  · exact not_whole_numeral form _

theorem wellFormed_magnitudeNumeral (form : Spelling) (m : Nat) (e : Int) :
    (form.magnitudeNumeral m e).WellFormed := by
  rw [magnitudeNumeral]
  split
  · exact wellFormed_positionalNumeral (List.forall_mem_singleton.2 rfl) (List.cons_ne_nil _ _) 1
  · exact wellFormed_numeral form _

/-- A finite number is spelled as a numeral with the sign of the number. -/
theorem toList_spell_finite (form : Spelling) (valid : FiniteValid m e) :
    (form.spell (.finite negative m e valid)).toList =
      ((form.magnitudeNumeral m e).signed negative).text := by
  rw [Numeral.text_signed (sign_magnitudeNumeral form m e), magnitudeNumeral, spell,
    String.toList_ofList]
  congr 1
  split
  · rfl
  · rw [text_numeral]

/-- **Scanning what was spelled.** The text of a finite number gives its numeral again. -/
theorem ofText?_spell_finite (form : Spelling) (valid : FiniteValid m e) :
    Numeral.ofText? (form.spell (.finite negative m e valid)).toList =
      some ((form.magnitudeNumeral m e).signed negative) := by
  rw [toList_spell_finite]
  exact Numeral.ofText?_text ((wellFormed_magnitudeNumeral form m e).signed negative)

/-- Only a zero is spelled as a zero. -/
theorem magnitude_magnitudeNumeral_eq_zero_iff (form : Spelling) (valid : FiniteValid m e) :
    (form.magnitudeNumeral m e).magnitude = 0 ↔ m = 0 := by
  rw [magnitudeNumeral]
  split
  · rename_i hm
    rw [magnitude_positionalNumeral, decimalValue]
    exact iff_of_true (by simp [natOfDigits]) hm
  · rename_i hm
    rw [magnitude_numeral]
    exact iff_of_false (value_shortest_pos form.tie valid (Nat.pos_of_ne_zero hm)).ne' hm

/-- The words for the infinities and for NaN are no numerals. -/
theorem ofText?_yaml_eq_none {x : Binary64} (h : x.isFinite = false) :
    Numeral.ofText? (yaml.spell x).toList = none := by
  cases x with
  | nan => decide
  | infinity negative => cases negative <;> decide
  | finite => cases h

/-- A YAML spelling that scans as a numeral is that of a finite number. -/
theorem exists_finite_of_ofText? {x : Binary64} {n : Numeral}
    (h : Numeral.ofText? (yaml.spell x).toList = some n) :
    ∃ negative m e valid, x = .finite negative m e valid ∧
      n = (yaml.magnitudeNumeral m e).signed negative := by
  cases hx : x.isFinite with
  | false =>
    rw [ofText?_yaml_eq_none hx] at h
    cases h
  | true =>
    cases x with
    | nan | infinity => cases hx
    | finite negative m e valid =>
      rw [ofText?_spell_finite] at h
      exact ⟨negative, m, e, valid, rfl, (Option.some.inj h).symm⟩

/-- Finite numbers with one numeral are the same number. -/
theorem same_of_signed_eq {valid : FiniteValid m e} {valid' : FiniteValid n f}
    (h : (yaml.magnitudeNumeral m e).signed negative =
      (yaml.magnitudeNumeral n f).signed negative') :
    (Binary64.finite negative m e valid).same (.finite negative' n f valid') = true := by
  have hsign : negative = negative' := by
    have := congrArg Numeral.sign h
    cases negative <;> cases negative' <;> first | rfl | cases this
  have hmagnitude : (yaml.magnitudeNumeral m e).magnitude =
      (yaml.magnitudeNumeral n f).magnitude := by
    rw [← Numeral.magnitude_signed _ negative, h, Numeral.magnitude_signed]
  have hvalue : m = n ∧ e = f := by
    have hzero : m = 0 ↔ n = 0 := by
      rw [← magnitude_magnitudeNumeral_eq_zero_iff yaml valid, hmagnitude,
        magnitude_magnitudeNumeral_eq_zero_iff yaml valid']
    by_cases hm : m = 0
    -- A zero has one valid exponent.
    · have hn := hzero.1 hm
      refine ⟨hm.trans hn.symm, ?_⟩
      rw [valid.norm.resolve_left (by omega), valid'.norm.resolve_left (by omega)]
    -- Otherwise the shortest digits of the two have one value.
    · have hn := mt hzero.2 hm
      rw [magnitudeNumeral, magnitudeNumeral, if_neg hm, if_neg hn, magnitude_numeral,
        magnitude_numeral] at hmagnitude
      exact value_shortest_inj valid valid' (Nat.pos_of_ne_zero hm) (Nat.pos_of_ne_zero hn)
        hmagnitude
  obtain ⟨rfl, rfl⟩ := hvalue
  simp [Binary64.same, hsign]

/-- **A spelling belongs to one number.** -/
theorem same_of_spell_eq {x y : Binary64} (h : yaml.spell x = yaml.spell y) : x.same y = true := by
  cases hx : Numeral.ofText? (yaml.spell x).toList with
  | some n =>
    obtain ⟨_, _, _, _, rfl, hn⟩ := exists_finite_of_ofText? hx
    rw [h] at hx
    obtain ⟨_, _, _, _, rfl, hn'⟩ := exists_finite_of_ofText? hx
    exact same_of_signed_eq (hn.symm.trans hn')
  -- No numeral: the two are among three words, which differ.
  | none =>
    have hy := hx
    rw [h] at hy
    cases x with
    | finite => rw [ofText?_spell_finite] at hx; cases hx
    | nan =>
      cases y with
      | finite => rw [ofText?_spell_finite] at hy; cases hy
      | nan => rfl
      | infinity negative => cases negative <;> exact absurd h (by decide)
    | infinity negative =>
      cases y with
      | finite => rw [ofText?_spell_finite] at hy; cases hy
      | nan => cases negative <;> exact absurd h (by decide)
      | infinity negative' =>
        cases negative <;> cases negative' <;> first | rfl | exact absurd h (by decide)

end Spelling

/-! ### Integers -/

/-- The numeral that an integer is written as. -/
def intNumeral (i : Int) : Numeral :=
  Numeral.signed (i < 0) ⟨none, Nat.toDigits 10 i.natAbs, none, none⟩

theorem whole_intNumeral (i : Int) : (intNumeral i).Whole := ⟨rfl, rfl⟩

theorem text_intNumeral (i : Int) : (intNumeral i).text = (toString i).toList := by
  cases i with
  | ofNat n =>
    have hrepr : toString (Int.ofNat n) = n.repr := rfl
    rw [hrepr, Nat.repr_eq_ofList_toDigits, String.toList_ofList, intNumeral,
      decide_eq_false (by simp), Numeral.text]
    simp [Numeral.signed]
  | negSucc n =>
    have hrepr : toString (Int.negSucc n) = "-" ++ (n + 1).repr := rfl
    rw [hrepr, Nat.repr_eq_ofList_toDigits, String.toList_append, String.toList_ofList, intNumeral,
      decide_eq_true (Int.negSucc_lt_zero n), Numeral.text]
    simp [Numeral.signed]

/-- An integer is written with a minus sign and digits only. -/
theorem sign_or_digit_of_mem_int {i : Int} {c : Char} (hc : c ∈ (toString i).toList) :
    c = '-' ∨ c.isDigit = true := by
  rw [← text_intNumeral] at hc
  have hmem : (i < 0 ∧ '-' = c) ∨ c ∈ Nat.toDigits 10 i.natAbs := by
    simpa [intNumeral, Numeral.signed, Numeral.text] using hc
  rcases hmem with ⟨_, rfl⟩ | hc
  · exact Or.inl rfl
  · exact Or.inr (isDigit_of_mem_toDigits hc)

/-- The text of an integer gives its numeral again. -/
theorem ofText?_int (i : Int) : Numeral.ofText? (toString i).toList = some (intNumeral i) := by
  rw [← text_intNumeral]
  refine Numeral.ofText?_text (Numeral.WellFormed.signed ?_ _)
  exact {
    sign := nofun
    whole := fun c hc => isDigit_of_mem_toDigits hc
    fraction := nofun
    nonempty := by
      rw [Option.getD_none, List.append_nil]
      exact Nat.toDigits_ne_nil
    exponent := nofun }

theorem intNumeral_injective {i j : Int} (h : intNumeral i = intNumeral j) : i = j := by
  have hsign := congrArg Numeral.sign h
  have hwhole := congrArg (fun n => natOfDigits n.whole) h
  simp only [intNumeral, Numeral.signed, natOfDigits_toDigits] at hsign hwhole
  by_cases hi : i < 0 <;> by_cases hj : j < 0 <;> simp [hi, hj] at hsign <;> omega

theorem int_injective {i j : Int} (h : toString i = toString j) : i = j := by
  have hi := ofText?_int i
  rw [h, ofText?_int] at hi
  exact (intNumeral_injective (Option.some.inj hi)).symm

end Foundry.Decimal
