import Foundry.Proofs.Decimal.Numeral
import Mathlib.Data.List.Basic

/-!
# The longest numeral

`IsNumeral` is the grammar of decimal numerals: an optional sign, digits with an optional point
among or around them, and an optional exponent with digits of its own. A text may start with
several numerals, as `12e3x` does with `1`, `12` and `12e3`; `Numeral.scan` takes the longest one.

The scan goes on to whatever comes next as soon as a part of a numeral cannot go on, and it never
comes back but for a mark of an exponent without digits. So it leaves at most what stands behind any
numeral that the text starts with (`Numeral.exists_scan_append`): up to an exponent, every part that
the numeral has is taken as it is; where it has none, all parts only take more.

* `isNumeral_iff`: the texts of the grammar are those of well-formed numerals.
* `Numeral.scan_eq_some_iff`: what is scanned is the longest numeral.
* `Numeral.scan_eq_none_iff`: nothing is scanned where no numeral stands.
-/

namespace Foundry.Decimal

variable {cs ds p q r rest : List Char} {sign : Option Char}

/-! ### The grammar -/

/-- One digit or more. -/
structure DigitRun (ds : List Char) : Prop where
  nonempty : ds ≠ []
  isDigit : ∀ d ∈ ds, d.isDigit = true

/-- Digits with an optional point: behind them, between them, or in front of them. -/
inductive Mantissa : List Char → Prop
  | whole {ds : List Char} (hds : DigitRun ds) : Mantissa ds
  | pointed {ds fs : List Char} (hds : DigitRun ds) (hfs : ∀ d ∈ fs, d.isDigit = true) :
    Mantissa (ds ++ '.' :: fs)
  | fraction {fs : List Char} (hfs : DigitRun fs) : Mantissa ('.' :: fs)

/-- Nothing, or a mark, an optional sign and digits. -/
inductive ExponentPart : List Char → Prop
  | none : ExponentPart []
  | some {mark : Char} {sign : Option Char} {ds : List Char} (hmark : mark = 'e' ∨ mark = 'E')
    (hsign : ∀ c ∈ sign, c = '-' ∨ c = '+') (hds : DigitRun ds) :
    ExponentPart (mark :: (sign.toList ++ ds))

/-- The texts of numerals. -/
inductive IsNumeral : List Char → Prop
  | mk {sign : Option Char} {mantissa exponent : List Char} (hsign : ∀ c ∈ sign, c = '-' ∨ c = '+')
    (hmantissa : Mantissa mantissa) (hexponent : ExponentPart exponent) :
    IsNumeral (sign.toList ++ mantissa ++ exponent)

/-- A mantissa is digits, with a fraction or without, and there is a digit. -/
theorem mantissa_iff : Mantissa cs ↔ ∃ (whole : List Char) (fraction : Option (List Char)),
    (∀ d ∈ whole, d.isDigit = true) ∧ (∀ ds ∈ fraction, ∀ d ∈ ds, d.isDigit = true) ∧
      whole ++ fraction.getD [] ≠ [] ∧ cs = whole ++ fraction.elim [] ('.' :: ·) := by
  constructor
  · intro h
    cases h with
    | whole hds => exact ⟨cs, none, hds.isDigit, by simp, by simpa using hds.nonempty, by simp⟩
    | @pointed ds fs hds hfs =>
      exact ⟨ds, some fs, hds.isDigit, by simpa using hfs, by simp [hds.nonempty], rfl⟩
    | @fraction fs hfs =>
      exact ⟨[], some fs, by simp, by simpa using hfs.isDigit, by simpa using hfs.nonempty, rfl⟩
  · rintro ⟨whole, fraction, hwhole, hfraction, hne, rfl⟩
    cases fraction with
    | none =>
      have h : Mantissa whole := .whole ⟨by simpa using hne, hwhole⟩
      simpa using h
    | some fs =>
      have hfs : ∀ d ∈ fs, d.isDigit = true := hfraction fs rfl
      by_cases hnil : whole = []
      · subst hnil
        exact .fraction ⟨by simpa using hne, hfs⟩
      · exact .pointed ⟨hnil, hwhole⟩ hfs

theorem exponentPart_iff : ExponentPart cs ↔
    ∃ exponent : Option Exponent, (∀ x ∈ exponent, x.WellFormed) ∧
      cs = exponent.elim [] Exponent.text := by
  constructor
  · intro h
    cases h with
    | none => exact ⟨none, by simp, rfl⟩
    | @some mark sign ds hmark hsign hds =>
      have hx : (⟨mark, sign, ds⟩ : Exponent).WellFormed :=
        ⟨hmark, hsign, hds.isDigit, hds.nonempty⟩
      exact ⟨some ⟨mark, sign, ds⟩, by simpa using hx, rfl⟩
  · rintro ⟨exponent, hwell, rfl⟩
    cases exponent with
    | none => exact .none
    | some x =>
      have hx := hwell x rfl
      exact .some hx.mark hx.sign ⟨hx.nonempty, hx.digits⟩

/-- **The grammar and its numerals.** -/
theorem isNumeral_iff : IsNumeral cs ↔ ∃ n : Numeral, n.WellFormed ∧ n.text = cs := by
  constructor
  · rintro ⟨hsign, hmantissa, hexponent⟩
    obtain ⟨whole, fraction, hwhole, hfraction, hne, rfl⟩ := mantissa_iff.1 hmantissa
    obtain ⟨exponent, hwell, rfl⟩ := exponentPart_iff.1 hexponent
    refine ⟨⟨_, whole, fraction, exponent⟩, ⟨hsign, hwhole, hfraction, hne, hwell⟩, ?_⟩
    simp [Numeral.text]
  · rintro ⟨n, hn, rfl⟩
    have hmantissa : Mantissa (n.whole ++ n.fraction.elim [] ('.' :: ·)) :=
      mantissa_iff.2 ⟨n.whole, n.fraction, hn.whole, hn.fraction, hn.nonempty, rfl⟩
    have hexponent : ExponentPart (n.exponent.elim [] Exponent.text) :=
      exponentPart_iff.2 ⟨n.exponent, hn.exponent, rfl⟩
    have h := IsNumeral.mk hn.sign hmantissa hexponent
    simpa [Numeral.text] using h

/-! ### Parts of a scan -/

/-- Digits in front of a text are split off with those it starts with. -/
theorem spanDigits_append_of_isDigit (hds : ∀ d ∈ ds, d.isDigit = true) (q : List Char) :
    spanDigits (ds ++ q) = (ds ++ (spanDigits q).1, (spanDigits q).2) := by
  rw [spanDigits, List.takeWhile_append_of_pos hds, List.dropWhile_append_of_pos hds]
  rfl

theorem length_spanDigits_le (cs : List Char) : (spanDigits cs).2.length ≤ cs.length := by
  have h := congrArg List.length (spanDigits_append cs)
  rw [List.length_append] at h
  omega

/-- An exponent in front of a text takes in the digits that the text starts with. -/
theorem Exponent.scan_append {x : Exponent} (h : x.WellFormed) (q : List Char) :
    Exponent.scan (x.text ++ q) =
      some (⟨x.mark, x.sign, x.digits ++ (spanDigits q).1⟩, (spanDigits q).2) := by
  have hfirst : ∀ c ∈ (x.digits ++ q).head?, ¬ (c = '-' ∨ c = '+') := by
    intro c hc
    rw [List.head?_append_of_ne_nil _ h.nonempty] at hc
    exact not_sign_of_isDigit (h.digits c (List.mem_of_mem_head? hc))
  have hne : ¬ (x.digits ++ (spanDigits q).1).isEmpty = true := by simp [h.nonempty]
  rw [text, List.cons_append, scan, if_pos h.mark, List.append_assoc,
    spanSign_sign_append h.sign hfirst]
  dsimp only
  rw [spanDigits_append_of_isDigit h.digits]
  dsimp only
  rw [if_neg hne]

namespace Numeral

theorem length_scanFraction_le (cs : List Char) : (scanFraction cs).2.length ≤ cs.length := by
  have h := congrArg List.length (append_scanFraction cs)
  rw [List.length_append] at h
  omega

theorem length_scanExponent_le (cs : List Char) : (scanExponent cs).2.length ≤ cs.length := by
  have h := congrArg List.length (append_scanExponent cs)
  rw [List.length_append] at h
  omega

/-- The parts of a scan, one behind the other. -/
theorem scan_of_parts {whole : List Char} {fraction : Option (List Char)} {r₁ r₂ r₃ : List Char}
    (hsign : spanSign cs = (sign, r₁)) (hwhole : spanDigits r₁ = (whole, r₂))
    (hfraction : scanFraction r₂ = (fraction, r₃)) (hne : whole ++ fraction.getD [] ≠ []) :
    scan cs = some (⟨sign, whole, fraction, (scanExponent r₃).1⟩, (scanExponent r₃).2) := by
  have hempty : ¬ (whole ++ fraction.getD []).isEmpty = true := by
    rw [List.isEmpty_iff]
    exact hne
  unfold scan
  rw [hsign]
  dsimp only
  rw [hwhole]
  dsimp only
  rw [hfraction]
  dsimp only
  rw [if_neg hempty]

/-- **Nothing longer is missed.** What a scan leaves of a text that starts with a numeral is no more
than what stands behind the numeral. -/
theorem exists_scan_append {n : Numeral} (h : n.WellFormed) (q : List Char) :
    ∃ m r, scan (n.text ++ q) = some (m, r) ∧ r.length ≤ q.length := by
  obtain ⟨sign, whole, fraction, exponent⟩ := n
  have hsign : spanSign ((Numeral.mk sign whole fraction exponent).text ++ q) =
      (sign, whole ++ (fraction.elim [] ('.' :: ·) ++ (exponent.elim [] Exponent.text ++ q))) := by
    have hfirst : ∀ c ∈ (whole ++ (fraction.elim [] ('.' :: ·) ++
        (exponent.elim [] Exponent.text ++ q))).head?, ¬ (c = '-' ∨ c = '+') := by
      intro c hc
      refine head?_whole h c ?_
      have hne : whole ++ fraction.elim [] ('.' :: ·) ≠ [] := by
        cases fraction with
        | none => simpa using h.nonempty
        | some fs => simp
      rw [← List.append_assoc, List.head?_append_of_ne_nil _ hne] at hc
      rw [← List.append_assoc, List.head?_append_of_ne_nil _ hne]
      exact hc
    rw [← spanSign_sign_append h.sign hfirst]
    simp [text]
  cases exponent with
  | some x =>
    -- The mark of the exponent ends the digits in front of it, so all parts are taken as they are.
    have hx : x.WellFormed := h.exponent x rfl
    have hmark : ∀ c ∈ (x.text ++ q).head?, c = 'e' ∨ c = 'E' := by
      intro c hc
      rw [Exponent.text, List.cons_append, List.head?_cons] at hc
      exact Option.some.inj hc ▸ hx.mark
    have hfraction : scanFraction (fraction.elim [] ('.' :: ·) ++ (x.text ++ q)) =
        (fraction, x.text ++ q) :=
      scanFraction_append (n := ⟨sign, whole, fraction, some x⟩) h.fraction hmark
    have hwhole : spanDigits (whole ++ (fraction.elim [] ('.' :: ·) ++ (x.text ++ q))) =
        (whole, fraction.elim [] ('.' :: ·) ++ (x.text ++ q)) := by
      refine spanDigits_digits_append h.whole fun c hc => ?_
      cases fraction with
      | none => rcases hmark c hc with rfl | rfl <;> rfl
      | some fs => rw [← Option.some.inj hc]; rfl
    refine ⟨_, _, scan_of_parts hsign hwhole hfraction h.nonempty, ?_⟩
    rw [scanExponent, Exponent.scan_append hx]
    exact length_spanDigits_le q
  | none =>
    cases fraction with
    | some fs =>
      -- The point ends the whole part; the digits behind it may go on.
      have hwhole : spanDigits (whole ++ ('.' :: fs ++ q)) = (whole, '.' :: fs ++ q) := by
        refine spanDigits_digits_append h.whole fun c hc => ?_
        rw [← Option.some.inj hc]
        rfl
      have hfraction : scanFraction ('.' :: fs ++ q) =
          (some (fs ++ (spanDigits q).1), (spanDigits q).2) := by
        show (some (spanDigits (fs ++ q)).1, (spanDigits (fs ++ q)).2) = _
        rw [spanDigits_append_of_isDigit (h.fraction fs rfl)]
      have hne : whole ++ (some (fs ++ (spanDigits q).1)).getD [] ≠ [] := by
        have hdigit := h.nonempty
        rw [Option.getD_some] at hdigit ⊢
        rw [← List.append_assoc]
        exact List.append_ne_nil_of_left_ne_nil hdigit _
      refine ⟨_, _, scan_of_parts hsign hwhole hfraction hne, ?_⟩
      have hrest := length_spanDigits_le q
      have hexponent := length_scanExponent_le (spanDigits q).2
      omega
    | none =>
      -- The digits may go on, and a point and an exponent may follow.
      have hwhole : spanDigits (whole ++ q) = (whole ++ (spanDigits q).1, (spanDigits q).2) :=
        spanDigits_append_of_isDigit h.whole q
      have hne : whole ++ (spanDigits q).1 ++ (scanFraction (spanDigits q).2).1.getD [] ≠ [] := by
        have hdigit : whole ≠ [] := by simpa using h.nonempty
        rw [List.append_assoc]
        exact List.append_ne_nil_of_left_ne_nil hdigit _
      have hscan := scan_of_parts hsign hwhole (Prod.mk.eta).symm hne
      refine ⟨_, _, hscan, ?_⟩
      have hrest := length_spanDigits_le q
      have hfraction := length_scanFraction_le (spanDigits q).2
      have hexponent := length_scanExponent_le (scanFraction (spanDigits q).2).2
      omega

end Numeral

/-! ### The longest one -/

/-- The text starts with the numeral, and with no longer one. -/
structure StartsWithLongest (cs p rest : List Char) : Prop where
  append : p ++ rest = cs
  isNumeral : IsNumeral p
  longest : ∀ q, q <+: cs → IsNumeral q → q.length ≤ p.length

/-- A text starts with one longest numeral at most. -/
theorem StartsWithLongest.unique {p' rest' : List Char} (h : StartsWithLongest cs p rest)
    (h' : StartsWithLongest cs p' rest') : p = p' ∧ rest = rest' := by
  have hle := h'.longest p ⟨rest, h.append⟩ h.isNumeral
  have hge := h.longest p' ⟨rest', h'.append⟩ h'.isNumeral
  exact List.append_inj (h.append.trans h'.append.symm) (Nat.le_antisymm hle hge)

namespace Numeral

/-- What is scanned is the longest numeral. -/
theorem startsWithLongest_of_scan {n : Numeral} (h : scan cs = some (n, rest)) :
    StartsWithLongest cs n.text rest where
  append := append_of_scan h
  isNumeral := isNumeral_iff.2 ⟨n, wellFormed_of_scan h, rfl⟩
  longest := by
    rintro q ⟨r, rfl⟩ hq
    obtain ⟨m, hm, rfl⟩ := isNumeral_iff.1 hq
    obtain ⟨n', rest', hscan, hle⟩ := exists_scan_append hm r
    rw [h] at hscan
    obtain ⟨rfl, rfl⟩ := Prod.mk.inj (Option.some.inj hscan)
    have hlength := congrArg List.length (append_of_scan h)
    rw [List.length_append, List.length_append] at hlength
    omega

/-- **What is scanned** is the longest numeral that the text starts with. -/
theorem scan_eq_some_iff {n : Numeral} : scan cs = some (n, rest) ↔
    ∃ p, StartsWithLongest cs p rest ∧ ofText? p = some n := by
  constructor
  · intro h
    exact ⟨n.text, startsWithLongest_of_scan h, ofText?_text (wellFormed_of_scan h)⟩
  · rintro ⟨p, hp, hn⟩
    obtain ⟨m, hm, rfl⟩ := isNumeral_iff.1 hp.isNumeral
    rw [ofText?_text hm, Option.some.injEq] at hn
    subst hn
    obtain ⟨n', rest', hscan, _⟩ := exists_scan_append hm rest
    rw [hp.append] at hscan
    -- The scan finds the longest numeral, and there is only one.
    obtain ⟨htext, rfl⟩ := hp.unique (startsWithLongest_of_scan hscan)
    have hsame : ofText? n'.text = some n' := ofText?_text (wellFormed_of_scan hscan)
    rw [← htext, ofText?_text hm, Option.some.injEq] at hsame
    rw [hscan, hsame]

/-- **When nothing is scanned.** -/
theorem scan_eq_none_iff : scan cs = none ↔ ∀ p, p <+: cs → ¬ IsNumeral p := by
  constructor
  · rintro h p ⟨r, rfl⟩ hp
    obtain ⟨n, hn, rfl⟩ := isNumeral_iff.1 hp
    obtain ⟨_, _, hscan, _⟩ := exists_scan_append hn r
    rw [h] at hscan
    cases hscan
  · intro h
    rw [Option.eq_none_iff_forall_ne_some]
    rintro ⟨n, r⟩ hscan
    have hlongest := startsWithLongest_of_scan hscan
    exact h n.text ⟨r, hlongest.append⟩ hlongest.isNumeral

end Numeral

end Foundry.Decimal
