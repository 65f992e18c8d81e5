import Foundry.Parameter.Scalar
import Foundry.Proofs.Decimal.Numeral
import Mathlib.Data.List.Basic

/-!
# Integers of declared types

A value `Denotes` an integer if it is one, or if it is a string that starts with one; then the
character behind the digits may scale it. A type reads the integer that a value denotes and refuses
it where it does not fit.

An integer may be longer than any word. `readInWords` does what `read` does to a string, step by
step in words of 128 bits: the digits are read and scaled with a look at overflow, the sign is
changed without one.

* `leads_iff`: how a text starts that holds an integer.
* `read_of_leads`: what reading such a text comes down to.
* `toInt_readInWords`: no step in words goes wrong, however many digits there are.
* `read_iff_denotes`: what is read, and how it is written as a literal.
* `integer_refusals`: what is refused, and why. A number is out of range for its type as long as its
  digits fit into a word; longer ones count as no number at all.
-/

namespace Foundry.Parameter

open Foundry.Decimal Foundry.Text Foundry.Yaml

-- A power with a natural exponent is the repeated product.
attribute [local instance (high)] instPowNat

variable {t : IntegerType} {n : Node} {s : String} {cs digits rest : List Char}
  {sign : Option Char} {i j : Int} {e : ConversionError}

/-! ### Texts that start with an integer -/

/-- The text is an optional sign, digits, and a rest that goes on with no digit. -/
structure Leads (cs : List Char) (sign : Option Char) (digits rest : List Char) : Prop where
  text : cs = sign.toList ++ digits ++ rest
  isSign : ∀ c ∈ sign, c = '-' ∨ c = '+'
  isDigit : ∀ d ∈ digits, d.isDigit = true
  nonempty : digits ≠ []
  maximal : ∀ c ∈ rest.head?, c.isDigit = false

/-- The integer that a sign and digits stand for. -/
def signedValue (sign : Option Char) (digits : List Char) : Int :=
  if sign = some '-' then -(Nat.ofDigitChars 10 digits 0 : Int) else Nat.ofDigitChars 10 digits 0

theorem natOfDigits_eq (ds : List Char) : natOfDigits ds = Nat.ofDigitChars 10 ds 0 := rfl

theorem not_isDigit_of_mem_head?_spanDigits {c : Char} (h : c ∈ (spanDigits cs).2.head?) :
    c.isDigit = false := by
  have hhead := List.head?_dropWhile_not Char.isDigit cs
  rw [spanDigits, Option.mem_def] at h
  rw [h] at hhead
  simpa using hhead

/-- Where the splits of a text lead. -/
theorem leads_iff :
    Leads cs sign digits rest ↔
      digits ≠ [] ∧ spanSign cs = (sign, digits ++ rest) ∧
        spanDigits (digits ++ rest) = (digits, rest) := by
  constructor
  · rintro ⟨rfl, hsign, hdigits, hne, hmaximal⟩
    refine ⟨hne, ?_, spanDigits_digits_append hdigits hmaximal⟩
    rw [List.append_assoc]
    refine spanSign_sign_append hsign fun c hc => not_sign_of_isDigit ?_
    rw [List.head?_append_of_ne_nil _ hne] at hc
    exact hdigits c (List.mem_of_mem_head? hc)
  · rintro ⟨hne, hspan, hdigits⟩
    refine ⟨?_, fun c hc => ?_, fun d hd => ?_, hne, fun c hc => ?_⟩
    · have happend := spanSign_append cs
      rw [hspan] at happend
      rw [← happend, List.append_assoc]
    · have hmem : c ∈ (spanSign cs).1 := by
        rw [hspan]
        exact hc
      exact sign_of_mem_spanSign hmem
    · have hmem : d ∈ (spanDigits (digits ++ rest)).1 := by
        rw [hdigits]
        exact hd
      exact isDigit_of_mem_spanDigits hmem
    · have hmem : c ∈ (spanDigits (digits ++ rest)).2.head? := by
        rw [hdigits]
        exact hc
      exact not_isDigit_of_mem_head?_spanDigits hmem

/-- A text starts with one integer at most. -/
theorem Leads.unique {sign' : Option Char} {digits' rest' : List Char}
    (h : Leads cs sign digits rest) (h' : Leads cs sign' digits' rest') :
    sign = sign' ∧ digits = digits' ∧ rest = rest' := by
  obtain ⟨_, hspan, hdigits⟩ := leads_iff.1 h
  obtain ⟨_, hspan', hdigits'⟩ := leads_iff.1 h'
  obtain ⟨hsign, happend⟩ := Prod.mk.inj (hspan.symm.trans hspan')
  rw [happend] at hdigits
  exact ⟨hsign, Prod.mk.inj (hdigits.symm.trans hdigits')⟩

/-- Where the digits behind the sign of a text start it with an integer. -/
theorem leads_of_ne_nil (h : (spanDigits (spanSign cs).2).1 ≠ []) :
    Leads cs (spanSign cs).1 (spanDigits (spanSign cs).2).1 (spanDigits (spanSign cs).2).2 := by
  have hdigits := spanDigits_append (spanSign cs).2
  refine leads_iff.2 ⟨h, ?_, ?_⟩
  · rw [hdigits]
  · rw [hdigits]

/-- The integer that a text starts with is read if it has 127 bits at most. -/
theorem leadingInteger?_of_leads (h : Leads (trim cs) sign digits rest) :
    leadingInteger? cs =
      if Nat.ofDigitChars 10 digits 0 < 2 ^ (127 : Nat) then some (signedValue sign digits, rest)
      else none := by
  obtain ⟨hne, hspan, hdigits⟩ := leads_iff.1 h
  have hempty : ¬ digits.isEmpty = true := by simpa using hne
  unfold leadingInteger?
  rw [hspan]
  dsimp only
  rw [hdigits]
  dsimp only
  rw [natOfDigits_eq, greatestMagnitude]
  show (if _ ∨ _ then none else some (signedValue sign digits, rest)) = _
  by_cases hshort : Nat.ofDigitChars 10 digits 0 < 2 ^ (127 : Nat)
  · rw [if_pos hshort]
    refine if_neg (not_or.2 ⟨hempty, ?_⟩)
    omega
  · rw [if_neg hshort]
    refine if_pos (Or.inr ?_)
    omega

/-- Where there is no integer at the start, none is read. -/
theorem leadingInteger?_eq_none (h : ∀ sign digits rest, ¬ Leads (trim cs) sign digits rest) :
    leadingInteger? cs = none := by
  have hnil : (spanDigits (spanSign (trim cs)).2).1 = [] := by
    by_contra hne
    exact h _ _ _ (leads_of_ne_nil hne)
  unfold leadingInteger?
  dsimp only
  rw [hnil]
  exact if_pos (Or.inl rfl)

/-! ### Reading -/

theorem describe_of_bare_str (h : n.bare = .str s) : n.describe = s := by
  rw [Node.describe, h]
  rfl

theorem describe_of_bare_int (h : n.bare = .int i) : n.describe = toString i := by
  rw [Node.describe, h]
  rfl

namespace IntegerType

theorem check_eq_ok_iff : t.check n i = .ok j ↔ j = i ∧ t.min ≤ i ∧ i ≤ t.max := by
  unfold check
  split_ifs with h
  · rw [Except.ok.injEq, and_iff_left h, eq_comm]
  · simp [h]

theorem check_eq_error_iff :
    t.check n i = .error e ↔
      ¬ (t.min ≤ i ∧ i ≤ t.max) ∧ e = .outOfRange n.describe t.name t.min t.max := by
  unfold check
  split_ifs with h
  · simp [h]
  · rw [Except.error.injEq, and_iff_right h, eq_comm]

theorem read_of_int (h : n.bare = .int i) : t.read n = t.check n i := by
  rw [read, h]

/-- **Reading a text.** Its digits count if they fit into a word; then the integer is scaled and
checked. -/
theorem read_of_leads (hn : n.bare = .str s) (h : Leads (trim s.toList) sign digits rest) :
    t.read n =
      if Nat.ofDigitChars 10 digits 0 < 2 ^ (127 : Nat) then
        t.check n (signedValue sign digits * sizeFactor rest.head?)
      else .error (.invalid s t.name .noLeadingInteger) := by
  rw [read, hn]
  dsimp only
  rw [leadingInteger?_of_leads h]
  split_ifs <;> rfl

/-- A text that starts with no integer is refused for that. -/
theorem read_of_not_leads (hn : n.bare = .str s)
    (h : ∀ sign digits rest, ¬ Leads (trim s.toList) sign digits rest) :
    t.read n = .error (.invalid s t.name .noLeadingInteger) := by
  rw [read, hn]
  dsimp only
  rw [leadingInteger?_eq_none h]

/-- The bounds of every type are far within a word. -/
theorem bounds (t : IntegerType) :
    -(greatestMagnitude : Int) ≤ t.min ∧ t.min ≤ t.max ∧ t.max ≤ greatestMagnitude := by
  cases t <;> decide

end IntegerType

/-! ### What a value denotes -/

/-- The power of 1024 by which the character behind the digits scales an integer. -/
def powerBehind (rest : List Char) : Nat :=
  if rest.head? ∈ [some 'k', some 'K'] then 1
  else if rest.head? ∈ [some 'm', some 'M'] then 2
  else if rest.head? ∈ [some 'g', some 'G'] then 3
  else 0

/-- The value is the integer, or a string that starts with it, scaled by the character behind its
digits if that is a size letter. Tags around the value do not count. -/
inductive Denotes : Node → Int → Prop
  | int (i : Int) : Denotes (.int i) i
  | str {s : String} {sign : Option Char} {digits rest : List Char}
    (h : Leads (trim s.toList) sign digits rest) :
    Denotes (.str s) (signedValue sign digits * 1024 ^ powerBehind rest)
  | tagged {tag : String} {n : Node} {i : Int} (h : Denotes n i) : Denotes (.tagged tag n) i

theorem sizePower_head? (rest : List Char) : sizePower rest.head? = powerBehind rest := by
  unfold sizePower powerBehind
  split <;> simp_all

theorem denotes_bare_iff : Denotes n.bare i ↔ Denotes n i := by
  induction n using Node.bare.induct with
  | case1 tag n ih =>
    rw [Node.bare, ih]
    constructor
    · exact .tagged
    · rintro ⟨⟩
      assumption
  | case2 n h =>
    cases n <;> first | rfl | exact absurd rfl (h _ _)

theorem denotes_int_iff : Denotes (.int i) j ↔ j = i := by
  constructor
  · rintro ⟨⟩
    rfl
  · rintro rfl
    exact .int j

/-- A text denotes the integer that it starts with, times what the letter behind it stands for. -/
theorem denotes_str_iff (h : Leads (trim s.toList) sign digits rest) :
    Denotes (.str s) i ↔ i = signedValue sign digits * sizeFactor rest.head? := by
  have hfactor : (sizeFactor rest.head? : Int) = 1024 ^ powerBehind rest := by
    rw [sizeFactor, sizePower_head?]
    exact Int.natCast_pow 1024 _
  rw [hfactor]
  constructor
  · intro hdenotes
    cases hdenotes with
    | str h' =>
      obtain ⟨rfl, rfl, rfl⟩ := h.unique h'
      rfl
  · rintro rfl
    exact .str h

/-! ### What is read -/

theorem natAbs_signedValue (sign : Option Char) (digits : List Char) :
    (signedValue sign digits).natAbs = Nat.ofDigitChars 10 digits 0 := by
  unfold signedValue
  split
  · rw [Int.natAbs_neg, Int.natAbs_natCast]
  · rw [Int.natAbs_natCast]

/-- An integer whose digits do not fit into a word is far from the bounds of every type, and scaling
takes it farther. -/
theorem out_of_bounds_of_long (h : ¬ Nat.ofDigitChars 10 digits 0 < 2 ^ (127 : Nat))
    (letter : Option Char) :
    ¬ (t.min ≤ signedValue sign digits * sizeFactor letter ∧
      signedValue sign digits * sizeFactor letter ≤ t.max) := by
  have hsize : 2 ^ (127 : Nat) ≤ (signedValue sign digits * sizeFactor letter).natAbs := by
    rw [Int.natAbs_mul, natAbs_signedValue, Int.natAbs_natCast]
    exact (Nat.not_lt.1 h).trans (Nat.le_mul_of_pos_right _ (sizeFactor_pos letter))
  obtain ⟨hmin, _, hmax⟩ := t.bounds
  rw [greatestMagnitude] at hmin hmax
  generalize signedValue sign digits * sizeFactor letter = i at hsize ⊢
  omega

namespace IntegerType

/-- **What is read.** -/
theorem read_eq_ok_iff (t : IntegerType) (n : Node) (i : Int) :
    t.read n = .ok i ↔ Denotes n i ∧ t.min ≤ i ∧ i ≤ t.max := by
  rw [← denotes_bare_iff]
  cases hn : n.bare with
  | int j =>
    rw [read_of_int hn, check_eq_ok_iff, denotes_int_iff]
    exact and_congr_right fun h => by rw [h]
  | str s =>
    by_cases hleads : ∃ sign digits rest, Leads (trim s.toList) sign digits rest
    · obtain ⟨sign, digits, rest, h⟩ := hleads
      rw [read_of_leads hn h, denotes_str_iff h]
      split_ifs with hshort
      · rw [check_eq_ok_iff]
        exact and_congr_right fun h => by rw [h]
      · constructor
        · intro h
          cases h
        · rintro ⟨rfl, hbounds⟩
          exact absurd hbounds (out_of_bounds_of_long hshort rest.head?)
    · simp only [not_exists] at hleads
      rw [read_of_not_leads hn hleads]
      constructor
      · intro h
        cases h
      · rintro ⟨hdenotes, _⟩
        cases hdenotes with
        | str h => exact absurd h (hleads _ _ _)
  | _ =>
    rw [read, hn]
    constructor
    · intro h
      cases h
    · rintro ⟨⟨⟩, _⟩
      all_goals exact absurd hn (Node.bare_ne_tagged _ _ _)

end IntegerType

/-! ### Reading in words -/

/-- The words that integers are held in while they are read. -/
abbrev Word := BitVec 128

namespace Word

/-- The word of an integer, if it fits. -/
def ofInt? (i : Int) : Option Word :=
  if -2 ^ (127 : Nat) ≤ i ∧ i < 2 ^ (127 : Nat) then some (BitVec.ofInt 128 i) else none

/-- The sum of two words, unless it overflows. -/
def add? (a b : Word) : Option Word :=
  if a.saddOverflow b then none else some (a + b)

/-- The product of two words, unless it overflows. -/
def mul? (a b : Word) : Option Word :=
  if a.smulOverflow b then none else some (a * b)

/-- A word with a digit behind it. -/
def push? (w : Word) (d : Char) : Option Word := do
  add? (← mul? w 10) (BitVec.ofInt 128 (d.toNat - '0'.toNat : Nat))

/-- The word of a run of digits, read one after the other. -/
def ofDigits? (ds : List Char) : Option Word :=
  ds.foldlM push? 0

variable {a b w : Word} {d : Char}

theorem ofInt?_of_fits (h : -2 ^ (127 : Nat) ≤ i ∧ i < 2 ^ (127 : Nat)) :
    ofInt? i = some (BitVec.ofInt 128 i) := if_pos h

/-- An integer of 128 bits is kept by a word. -/
theorem toInt_ofInt (h : -2 ^ (127 : Nat) ≤ i ∧ i < 2 ^ (127 : Nat)) :
    (BitVec.ofInt 128 i).toInt = i :=
  BitVec.toInt_ofInt_eq_self (by decide) h.1 h.2

/-- A sum that does not overflow is the sum. -/
theorem add?_eq (a b : Word) : add? a b = ofInt? (a.toInt + b.toInt) := by
  unfold add? ofInt? BitVec.saddOverflow
  rw [BitVec.ofInt_add, BitVec.ofInt_toInt, BitVec.ofInt_toInt]
  generalize a.toInt + b.toInt = i
  simp only [Bool.or_eq_true, decide_eq_true_eq]
  split_ifs
  · omega
  · rfl
  · rfl
  · omega

/-- A product that does not overflow is the product. -/
theorem mul?_eq (a b : Word) : mul? a b = ofInt? (a.toInt * b.toInt) := by
  unfold mul? ofInt? BitVec.smulOverflow
  rw [BitVec.ofInt_mul, BitVec.ofInt_toInt, BitVec.ofInt_toInt]
  generalize a.toInt * b.toInt = i
  simp only [Bool.or_eq_true, decide_eq_true_eq]
  split_ifs
  · omega
  · rfl
  · rfl
  · omega

/-- One digit more is ten times the word and the digit, unless that goes beyond a word. -/
theorem push?_eq (hw : 0 ≤ w.toInt) (hd : d.isDigit = true) :
    push? w d = ofInt? (10 * w.toInt + (d.toNat - '0'.toNat : Nat)) := by
  have hdigit : d.toNat - '0'.toNat ≤ 9 := by
    have hle := (Char.isDigit_iff_toNat.1 hd).2
    exact Nat.sub_le_sub_right hle _
  unfold push?
  generalize d.toNat - '0'.toNat = v at hdigit ⊢
  have hten : (10 : Word).toInt = 10 := rfl
  rw [mul?_eq, hten, Int.mul_comm]
  by_cases hfits : 10 * w.toInt < 2 ^ (127 : Nat)
  · have hproduct : -2 ^ (127 : Nat) ≤ 10 * w.toInt ∧ 10 * w.toInt < 2 ^ (127 : Nat) :=
      ⟨by omega, hfits⟩
    rw [ofInt?_of_fits hproduct]
    show add? _ _ = _
    rw [add?_eq, toInt_ofInt hproduct, toInt_ofInt (by omega)]
  · rw [ofInt?, if_neg (by omega), ofInt?, if_neg (by omega)]
    rfl

/-- **Digits in words.** A run of digits, as long as it may be, is read as what it stands for, or
not at all. -/
theorem ofDigits?_eq (hdigits : ∀ d ∈ digits, d.isDigit = true) :
    ofDigits? digits = ofInt? (Nat.ofDigitChars 10 digits 0) := by
  induction digits using List.reverseRecOn with
  | nil => rfl
  | append_singleton ds d ih =>
    rw [List.forall_mem_append, List.forall_mem_singleton] at hdigits
    have hlast : Nat.ofDigitChars 10 (ds ++ [d]) 0 =
        10 * Nat.ofDigitChars 10 ds 0 + (d.toNat - '0'.toNat) := by
      rw [Nat.ofDigitChars, List.foldl_append]
      rfl
    have hstep : ofDigits? (ds ++ [d]) = ofDigits? ds >>= fun w => push? w d := by
      rw [ofDigits?, List.foldlM_append]
      simp only [List.foldlM_cons, List.foldlM_nil, bind_pure]
      rfl
    rw [hstep, ih hdigits.1, hlast]
    generalize Nat.ofDigitChars 10 ds 0 = m
    by_cases hfits : (m : Int) < 2 ^ (127 : Nat)
    · have hword : -2 ^ (127 : Nat) ≤ (m : Int) ∧ (m : Int) < 2 ^ (127 : Nat) := ⟨by omega, hfits⟩
      have hvalue := toInt_ofInt hword
      rw [ofInt?_of_fits hword]
      show push? (BitVec.ofInt 128 m) d = _
      rw [push?_eq (by omega) hdigits.2, hvalue]
      rfl
    · rw [ofInt?, if_neg (by omega), ofInt?, if_neg (by omega)]
      rfl

end Word

/-- The integer that a text starts with, in words. The sign is changed without a check. -/
def leadingWord? (cs : List Char) : Option (Word × List Char) :=
  let (sign, unsigned) := spanSign (trim cs)
  let (digits, rest) := spanDigits unsigned
  if digits.isEmpty then none
  else (Word.ofDigits? digits).map fun w => (if sign = some '-' then -w else w, rest)

/-- The integer that a string denotes, in words. -/
def IntegerType.readInWords (t : IntegerType) (s : String) : Except ConversionError Word :=
  let refused := .error (.outOfRange s t.name t.min t.max)
  match leadingWord? s.toList with
  | none => .error (.invalid s t.name .noLeadingInteger)
  | some (w, rest) =>
    match Word.mul? w (BitVec.ofInt 128 (sizeFactor rest.head?)) with
    | none => refused
    | some w =>
      if (BitVec.ofInt 128 t.min).sle w ∧ w.sle (BitVec.ofInt 128 t.max) then .ok w else refused

/-- Reading in words gives the integer that the text starts with. -/
theorem leadingWord?_eq (cs : List Char) :
    leadingWord? cs = (leadingInteger? cs).map fun (i, rest) => (BitVec.ofInt 128 i, rest) := by
  unfold leadingWord? leadingInteger?
  dsimp only
  have hdigits : ∀ d ∈ (spanDigits (spanSign (trim cs)).2).1, d.isDigit = true :=
    fun d => isDigit_of_mem_spanDigits
  generalize (spanSign (trim cs)).1 = sign
  generalize (spanDigits (spanSign (trim cs)).2).2 = rest
  generalize (spanDigits (spanSign (trim cs)).2).1 = digits at hdigits ⊢
  rw [Word.ofDigits?_eq hdigits, natOfDigits_eq, Word.ofInt?, greatestMagnitude]
  generalize Nat.ofDigitChars 10 digits 0 = m
  by_cases hempty : digits.isEmpty = true
  · rw [if_pos hempty, if_pos (Or.inl hempty)]
    rfl
  · rw [if_neg hempty]
    by_cases hfits : m < 2 ^ (127 : Nat)
    · rw [if_pos (by omega), if_neg (by simp [hempty]; omega)]
      split <;> simp [BitVec.ofInt_neg, *]
    · rw [if_neg (by omega), if_pos (Or.inr (by omega))]
      rfl

/-- The sign of an integer that was read can be changed in a word. -/
theorem fits_of_leadingInteger? (h : leadingInteger? cs = some (i, rest)) :
    -2 ^ (127 : Nat) < i ∧ i < 2 ^ (127 : Nat) := by
  unfold leadingInteger? at h
  dsimp only at h
  split at h
  · cases h
  · rename_i hshort
    rw [not_or, greatestMagnitude] at hshort
    obtain ⟨hi, _⟩ := Prod.mk.inj (Option.some.inj h)
    split at hi <;> omega

theorem sizeFactor_le (letter : Option Char) : sizeFactor letter ≤ 1024 ^ (3 : Nat) := by
  refine Nat.pow_le_pow_right (by decide) ?_
  unfold sizePower
  split <;> decide

/-- **No step goes wrong.** In words a string is read as it is among all integers, however many
digits it has: what overflows is seen and refused, and what is not looked at never overflows. -/
theorem IntegerType.toInt_readInWords (t : IntegerType) (s : String) :
    (t.readInWords s).map BitVec.toInt = t.read (.str s) := by
  rw [readInWords, leadingWord?_eq]
  cases hleading : leadingInteger? s.toList with
  | none =>
    have hread : t.read (.str s) = .error (.invalid s t.name .noLeadingInteger) := by
      simp only [read, Node.bare, hleading]
    rw [hread]
    rfl
  | some leading =>
    obtain ⟨i, rest⟩ := leading
    have hread : t.read (.str s) = t.check (.str s) (i * sizeFactor rest.head?) := by
      simp only [read, Node.bare, hleading]
    rw [hread]
    have hi := fits_of_leadingInteger? hleading
    have hfactor := sizeFactor_le rest.head?
    obtain ⟨hmin, hordered, hmax⟩ := t.bounds
    rw [greatestMagnitude] at hmin hmax
    dsimp only [Option.map_some]
    rw [Word.mul?_eq, Word.toInt_ofInt ⟨hi.1.le, hi.2⟩, Word.toInt_ofInt (by omega)]
    generalize i * (sizeFactor rest.head? : Int) = product
    by_cases hfits : -2 ^ (127 : Nat) ≤ product ∧ product < 2 ^ (127 : Nat)
    · have hvalue := Word.toInt_ofInt hfits
      have hbounds : ((BitVec.ofInt 128 t.min).sle (BitVec.ofInt 128 product) ∧
          (BitVec.ofInt 128 product).sle (BitVec.ofInt 128 t.max)) ↔
          t.min ≤ product ∧ product ≤ t.max := by
        rw [BitVec.sle_iff_toInt_le, BitVec.sle_iff_toInt_le, hvalue,
          Word.toInt_ofInt (by omega), Word.toInt_ofInt (by omega)]
      rw [Word.ofInt?_of_fits hfits, check]
      dsimp only
      by_cases h : t.min ≤ product ∧ product ≤ t.max
      · rw [if_pos (hbounds.2 h), if_pos h]
        exact congrArg Except.ok hvalue
      · rw [if_neg (mt hbounds.1 h), if_neg h]
        rfl
    · rw [Word.ofInt?, if_neg hfits, check, if_neg (by omega)]
      rfl

/-! ### Integers as literals -/

/-- **What is read, and what is written.** A type reads a value exactly if the value denotes an
integer within its bounds. Words are enough to do so, however long a string is, and what is written
is the integer in decimal digits. -/
theorem read_iff_denotes (t : IntegerType) (n : Node) :
    (∀ i, t.read n = .ok i ↔ Denotes n i ∧ t.min ≤ i ∧ i ≤ t.max) ∧
    (∀ s, (t.readInWords s).map BitVec.toInt = t.read (.str s)) ∧
    ∀ text, (Scalar.integer t).literal n = .ok text ↔
      ∃ i, Denotes n i ∧ t.min ≤ i ∧ i ≤ t.max ∧ text = toString i := by
  refine ⟨t.read_eq_ok_iff n, t.toInt_readInWords, fun text => ?_⟩
  show (t.read n).map toString = .ok text ↔ _
  constructor
  · intro h
    cases hread : t.read n with
    | error e =>
      rw [hread] at h
      cases h
    | ok i =>
      obtain ⟨hdenotes, hmin, hmax⟩ := (t.read_eq_ok_iff n i).1 hread
      rw [hread] at h
      exact ⟨i, hdenotes, hmin, hmax, (Except.ok.inj h).symm⟩
  · rintro ⟨i, hdenotes, hmin, hmax, rfl⟩
    rw [(t.read_eq_ok_iff n i).2 ⟨hdenotes, hmin, hmax⟩]
    rfl

/-! ### Refusals -/

/-- How a string is refused that starts with an integer. -/
theorem error_of_leads (hn : n.bare = .str s) (hleads : Leads (trim s.toList) sign digits rest)
    (h : t.read n = .error e) :
    e = if Nat.ofDigitChars 10 digits 0 < 2 ^ (127 : Nat) then .outOfRange s t.name t.min t.max
      else .invalid s t.name .noLeadingInteger := by
  rw [IntegerType.read_of_leads hn hleads] at h
  split_ifs at h ⊢
  · rw [IntegerType.check_eq_error_iff, describe_of_bare_str hn] at h
    exact h.2
  · exact (Except.error.inj h).symm

/-- A string that starts with no integer, or with one that does not fit into a word, is refused as
one without an integer. -/
theorem read_of_long (hn : n.bare = .str s)
    (h : ∀ sign digits rest, Leads (trim s.toList) sign digits rest →
      2 ^ (127 : Nat) ≤ Nat.ofDigitChars 10 digits 0) :
    t.read n = .error (.invalid s t.name .noLeadingInteger) := by
  by_cases hleads : ∃ sign digits rest, Leads (trim s.toList) sign digits rest
  · obtain ⟨sign, digits, rest, hleads⟩ := hleads
    rw [IntegerType.read_of_leads hn hleads]
    exact if_neg (Nat.not_lt.2 (h _ _ _ hleads))
  · simp only [not_exists] at hleads
    exact IntegerType.read_of_not_leads hn hleads

/-- **What is refused, and why.** An integer that is refused is out of range, with the name and the
bounds of the type and the text of the value; but a string whose digits do not fit into a word is
refused as if it had none. -/
theorem integer_refusals (t : IntegerType) (n : Node) :
    (∀ i e, n.bare = .int i → t.read n = .error e →
      e = .outOfRange (toString i) t.name t.min t.max) ∧
    (∀ s sign digits rest e, n.bare = .str s → Leads (trim s.toList) sign digits rest →
      t.read n = .error e →
        e = if Nat.ofDigitChars 10 digits 0 < 2 ^ (127 : Nat) then
          .outOfRange s t.name t.min t.max
        else .invalid s t.name .noLeadingInteger) ∧
    ∀ s value target reason, n.bare = .str s →
      (t.read n = .error (.invalid value target reason) ↔
        value = s ∧ target = t.name ∧ reason = .noLeadingInteger ∧
          ∀ sign digits rest, Leads (trim s.toList) sign digits rest →
            2 ^ (127 : Nat) ≤ Nat.ofDigitChars 10 digits 0) := by
  refine ⟨fun i e hn h => ?_, fun s sign digits rest e => error_of_leads,
    fun s value target reason hn => ?_⟩
  · rw [IntegerType.read_of_int hn, IntegerType.check_eq_error_iff, describe_of_bare_int hn] at h
    exact h.2
  · by_cases hlong : ∀ sign digits rest, Leads (trim s.toList) sign digits rest →
      2 ^ (127 : Nat) ≤ Nat.ofDigitChars 10 digits 0
    · rw [read_of_long hn hlong, Except.error.injEq, ConversionError.invalid.injEq]
      constructor
      · rintro ⟨rfl, rfl, rfl⟩
        exact ⟨rfl, rfl, rfl, hlong⟩
      · rintro ⟨rfl, rfl, rfl, _⟩
        exact ⟨rfl, rfl, rfl⟩
    · refine iff_of_false (fun h => hlong fun sign digits rest hleads => ?_) fun h => hlong h.2.2.2
      have herror := error_of_leads hn hleads h
      split_ifs at herror with hshort
      exact Nat.not_lt.1 hshort

/-- A number that is one too great for a word. -/
def hugeNumber : String := "170141183460469231731687303715884105728"

/-- The number is refused as if it had no digits; smaller ones that are refused are out of range. -/
theorem integer_refusals_hugeNumber :
    (Leads (trim hugeNumber.toList) none hugeNumber.toList [] ∧
      IntegerType.int64.read (.str hugeNumber) =
        .error (.invalid hugeNumber "int64" .noLeadingInteger)) ∧
    (∃ e, IntegerType.int8.read (.tagged "size" (.str "-1k")) = .error e ∧
      e = .outOfRange "-1k" "int8" (-128) 127) ∧
    ∃ e, IntegerType.uint8.read (.int 256) = .error e ∧ e = .outOfRange "256" "uint8" 0 255 := by
  have hhuge : Leads (trim hugeNumber.toList) none hugeNumber.toList [] :=
    leads_iff.2 ⟨by decide, by decide, by decide⟩
  have hkilo : Leads (trim "-1k".toList) (some '-') ['1'] ['k'] :=
    leads_iff.2 ⟨by decide, by decide, by decide⟩
  refine ⟨⟨hhuge, ?_⟩, ⟨_, rfl, ?_⟩, _, rfl, ?_⟩
  · refine ((integer_refusals _ _).2.2 hugeNumber _ _ _ rfl).2 ⟨rfl, rfl, rfl, ?_⟩
    intro sign digits rest h
    obtain ⟨_, rfl, _⟩ := hhuge.unique h
    decide
  · exact (integer_refusals .int8 (.tagged "size" (.str "-1k"))).2.1 _ _ _ _ _ rfl hkilo rfl
  · exact (integer_refusals .uint8 (.int 256)).1 _ _ rfl rfl

end Foundry.Parameter
