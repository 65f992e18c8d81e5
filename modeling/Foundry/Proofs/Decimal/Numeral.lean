import Foundry.Decimal.Numeral
import Mathlib.Data.List.Induction
import Mathlib.Tactic.Ring

/-!
# Scanning what was written

The text of a numeral is scanned as this numeral, with nothing left. So a text is the text of one
numeral at most.

* `natOfDigits_append`, `natOfDigits_toDigits`: the value of a run of digits.
* `Numeral.ofText?_text`: a numeral is scanned from its text.
* `Numeral.mem_text`: the characters of a numeral.
-/

namespace Foundry.Decimal

variable {digits rest : List Char} {sign : Option Char} {n : Numeral} {x : Exponent}

/-! ### Runs of digits -/

theorem natOfDigits_toDigits (n : Nat) : natOfDigits (Nat.toDigits 10 n) = n :=
  Nat.ofDigitChars_ten_toDigits

/-- Digits in front are worth a power of ten more for each digit behind them. -/
theorem natOfDigits_append (ds es : List Char) :
    natOfDigits (ds ++ es) = natOfDigits ds * 10 ^ es.length + natOfDigits es := by
  induction es using List.reverseRecOn with
  | nil => simp [natOfDigits]
  | append_singleton es e ih =>
    have hlast : ∀ cs : List Char,
        natOfDigits (cs ++ [e]) = 10 * natOfDigits cs + (e.toNat - '0'.toNat) := by
      intro cs
      rw [natOfDigits, List.foldl_append]
      rfl
    rw [← List.append_assoc, hlast, hlast, ih, List.length_append, List.length_singleton, pow_succ]
    ring

theorem natOfDigits_replicate_zero (n : Nat) : natOfDigits (List.replicate n '0') = 0 := by
  induction n with
  | zero => rfl
  | succ n ih =>
    rw [List.replicate_succ', natOfDigits_append, ih]
    rfl

theorem isDigit_of_mem_replicate_zero {n : Nat} {c : Char} (h : c ∈ List.replicate n '0') :
    c.isDigit = true := by
  rw [List.eq_of_mem_replicate h]
  rfl

theorem isDigit_of_mem_toDigits {n : Nat} {c : Char} (h : c ∈ Nat.toDigits 10 n) :
    c.isDigit = true :=
  Nat.isDigit_of_mem_toDigits (by decide) (by decide) h

/-! ### Scanning -/

/-- A sign is split off what does not start with one. -/
theorem spanSign_sign_append (hsign : ∀ c ∈ sign, c = '-' ∨ c = '+')
    (hrest : ∀ c ∈ rest.head?, ¬ (c = '-' ∨ c = '+')) :
    spanSign (sign.toList ++ rest) = (sign, rest) := by
  cases sign with
  | some c => exact if_pos (hsign c rfl)
  | none =>
    cases rest with
    | nil => rfl
    | cons c rest => exact if_neg (hrest c rfl)

theorem not_sign_of_isDigit {c : Char} (h : c.isDigit = true) : ¬ (c = '-' ∨ c = '+') := by
  rintro (rfl | rfl) <;> exact absurd h (by decide)

theorem spanSign_sign_append_digits (hsign : ∀ c ∈ sign, c = '-' ∨ c = '+')
    (hdigits : ∀ d ∈ digits, d.isDigit = true) :
    spanSign (sign.toList ++ digits) = (sign, digits) :=
  spanSign_sign_append hsign fun c hc =>
    not_sign_of_isDigit (hdigits c (List.mem_of_mem_head? hc))

/-- Digits are split off what does not start with one. -/
theorem spanDigits_digits_append (hdigits : ∀ d ∈ digits, d.isDigit = true)
    (hrest : ∀ c ∈ rest.head?, c.isDigit = false) :
    spanDigits (digits ++ rest) = (digits, rest) := by
  have hstop : rest.takeWhile Char.isDigit = [] ∧ rest.dropWhile Char.isDigit = rest := by
    cases rest with
    | nil => exact ⟨rfl, rfl⟩
    | cons c rest =>
      have hc := hrest c rfl
      simp [hc]
  rw [spanDigits, List.takeWhile_append_of_pos hdigits, List.dropWhile_append_of_pos hdigits,
    hstop.1, hstop.2, List.append_nil]

theorem spanDigits_digits (hdigits : ∀ d ∈ digits, d.isDigit = true) :
    spanDigits digits = (digits, []) := by
  have h : spanDigits (digits ++ []) = (digits, []) := spanDigits_digits_append hdigits (by simp)
  rwa [List.append_nil] at h

/-- An exponent is scanned from its text. -/
theorem Exponent.scan_text (h : x.WellFormed) : Exponent.scan x.text = some (x, []) := by
  rw [text, scan, if_pos h.mark, spanSign_sign_append_digits h.sign h.digits]
  dsimp only
  rw [spanDigits_digits h.digits, if_neg (by rw [List.isEmpty_iff]; exact h.nonempty)]

namespace Numeral

theorem head?_exponent (h : ∀ x ∈ n.exponent, x.WellFormed) :
    ∀ c ∈ (n.exponent.elim [] Exponent.text).head?, c = 'e' ∨ c = 'E' := by
  cases hx : n.exponent with
  | none =>
    intro c hc
    cases hc
  | some x =>
    intro c hc
    have hmark := (h x hx).mark
    rwa [← Option.some.inj hc]

theorem scanExponent_text (h : ∀ x ∈ n.exponent, x.WellFormed) :
    scanExponent (n.exponent.elim [] Exponent.text) = (n.exponent, []) := by
  cases hx : n.exponent with
  | none => rfl
  | some x =>
    rw [Option.elim_some, scanExponent, Exponent.scan_text (h x hx)]

/-- The fraction of a numeral is scanned up to the exponent. -/
theorem scanFraction_append (h : ∀ ds ∈ n.fraction, ∀ c ∈ ds, c.isDigit = true)
    (hrest : ∀ c ∈ rest.head?, c = 'e' ∨ c = 'E') :
    scanFraction ((n.fraction.elim [] ('.' :: ·)) ++ rest) = (n.fraction, rest) := by
  cases hds : n.fraction with
  | none =>
    cases rest with
    | nil => rfl
    | cons c rest => rcases hrest c rfl with rfl | rfl <;> rfl
  | some ds =>
    have hspan : spanDigits (ds ++ rest) = (ds, rest) :=
      spanDigits_digits_append (h ds hds) fun c hc => by rcases hrest c hc with rfl | rfl <;> rfl
    show (some (spanDigits (ds ++ rest)).1, (spanDigits (ds ++ rest)).2) = _
    rw [hspan]

theorem head?_fraction (h : ∀ x ∈ n.exponent, x.WellFormed) :
    ∀ c ∈ ((n.fraction.elim [] ('.' :: ·)) ++ n.exponent.elim [] Exponent.text).head?,
      c.isDigit = false := by
  intro c hc
  cases hds : n.fraction with
  | none =>
    rw [hds] at hc
    rcases head?_exponent h c hc with rfl | rfl <;> rfl
  | some ds =>
    rw [hds] at hc
    rw [← Option.some.inj hc]
    rfl

/-- Behind its sign, a numeral does not start with another one. -/
theorem head?_whole (h : n.WellFormed) :
    ∀ c ∈ (n.whole ++ ((n.fraction.elim [] ('.' :: ·)) ++ n.exponent.elim [] Exponent.text)).head?,
      ¬ (c = '-' ∨ c = '+') := by
  intro c hc
  cases hwhole : n.whole with
  | cons d ds =>
    rw [hwhole] at hc
    rw [← Option.some.inj hc]
    exact not_sign_of_isDigit (h.whole d (by rw [hwhole]; exact List.mem_cons_self))
  | nil =>
    cases hds : n.fraction with
    | none =>
      have hempty := h.nonempty
      rw [hwhole, hds] at hempty
      exact absurd rfl hempty
    | some ds =>
      rw [hwhole, hds] at hc
      rw [← Option.some.inj hc]
      decide

/-- **The text of a numeral is scanned as the numeral.** -/
theorem ofText?_text (h : n.WellFormed) : ofText? n.text = some n := by
  have hexponent := head?_exponent h.exponent
  have hscan : scan n.text = some (n, []) := by
    rw [text, List.append_assoc, List.append_assoc, scan,
      spanSign_sign_append h.sign (head?_whole h)]
    dsimp only
    rw [spanDigits_digits_append h.whole (head?_fraction h.exponent)]
    dsimp only
    rw [scanFraction_append h.fraction hexponent]
    dsimp only
    rw [scanExponent_text h.exponent, if_neg (by rw [List.isEmpty_iff]; exact h.nonempty)]
  rw [ofText?, hscan]

/-! ### Characters -/

theorem mem_exponent_text (h : x.WellFormed) {c : Char} (hc : c ∈ x.text) :
    c.isDigit = true ∨ c ∈ ['-', '+', '.', 'e', 'E'] := by
  rw [Exponent.text, List.mem_cons, List.mem_append, Option.mem_toList] at hc
  rcases hc with rfl | hc | hc
  · rcases h.mark with hmark | hmark <;> simp [hmark]
  · rcases h.sign c hc with rfl | rfl <;> simp
  · exact Or.inl (h.digits c hc)

/-- **What numerals are written with.** -/
theorem mem_text (h : n.WellFormed) {c : Char} (hc : c ∈ n.text) :
    c.isDigit = true ∨ c ∈ ['-', '+', '.', 'e', 'E'] := by
  rw [text, List.mem_append, List.mem_append, List.mem_append, Option.mem_toList] at hc
  rcases hc with ((hc | hc) | hc) | hc
  · rcases h.sign c hc with rfl | rfl <;> simp
  · exact Or.inl (h.whole c hc)
  · cases hds : n.fraction with
    | none => simp [hds] at hc
    | some ds =>
      rw [hds, Option.elim_some, List.mem_cons] at hc
      rcases hc with rfl | hc
      · simp
      · exact Or.inl (h.fraction ds hds c hc)
  · cases hx : n.exponent with
    | none => simp [hx] at hc
    | some x =>
      rw [hx] at hc
      exact mem_exponent_text (h.exponent x hx) hc

end Numeral

end Foundry.Decimal
