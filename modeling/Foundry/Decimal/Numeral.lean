import Foundry.Decimal.Binary64

/-!
# Decimal numerals

A numeral is an optional sign, digits with an optional point among or around them, and an optional
exponent: `12`, `-.5`, `3.`, `1e-3`. At least one digit stands beside the point, and an exponent has
digits of its own; `2e` is the numeral `2` with `e` behind it.

`Numeral.scan` splits a text after its leading numeral.

* `append_of_scan`: the numeral's text and the rest make up the input.
* `wellFormed_of_scan`: what was scanned is a numeral.
-/

namespace Foundry.Decimal

/-- The value of a run of decimal digits. -/
def natOfDigits (ds : List Char) : Nat :=
  ds.foldl (fun n d => 10 * n + (d.toNat - '0'.toNat)) 0

/-- The leading digits of a text, and the rest. -/
def spanDigits (cs : List Char) : List Char × List Char :=
  (cs.takeWhile Char.isDigit, cs.dropWhile Char.isDigit)

/-- The leading sign of a text, if it has one, and the rest. -/
def spanSign : List Char → Option Char × List Char
  | c :: r => if c = '-' ∨ c = '+' then (some c, r) else (none, c :: r)
  | [] => (none, [])

/-- The exponent of a numeral, as written: its mark, its sign, its digits. -/
structure Exponent where
  mark : Char
  sign : Option Char
  digits : List Char
  deriving DecidableEq

/-- A decimal numeral, as written; `fraction` holds the digits behind the point. -/
structure Numeral where
  sign : Option Char
  whole : List Char
  fraction : Option (List Char)
  exponent : Option Exponent
  deriving DecidableEq

namespace Exponent

def text (x : Exponent) : List Char :=
  x.mark :: (x.sign.toList ++ x.digits)

def value (x : Exponent) : Int :=
  if x.sign = some '-' then -(natOfDigits x.digits : Int) else natOfDigits x.digits

structure WellFormed (x : Exponent) : Prop where
  mark : x.mark = 'e' ∨ x.mark = 'E'
  sign : ∀ c ∈ x.sign, c = '-' ∨ c = '+'
  digits : ∀ c ∈ x.digits, c.isDigit = true
  nonempty : x.digits ≠ []

/-- The leading exponent of a text, and the rest. -/
def scan : List Char → Option (Exponent × List Char)
  | c :: r =>
    if c = 'e' ∨ c = 'E' then
      let (sign, r) := spanSign r
      let (digits, r) := spanDigits r
      if digits.isEmpty then none else some (⟨c, sign, digits⟩, r)
    else none
  | [] => none

end Exponent

namespace Numeral

/-- The numeral as it was written. -/
def text (n : Numeral) : List Char :=
  n.sign.toList ++ n.whole ++ (n.fraction.elim [] ('.' :: ·)) ++ (n.exponent.elim [] Exponent.text)

structure WellFormed (n : Numeral) : Prop where
  sign : ∀ c ∈ n.sign, c = '-' ∨ c = '+'
  whole : ∀ c ∈ n.whole, c.isDigit = true
  fraction : ∀ ds ∈ n.fraction, ∀ c ∈ ds, c.isDigit = true
  nonempty : n.whole ++ n.fraction.getD [] ≠ []
  exponent : ∀ x ∈ n.exponent, x.WellFormed

/-- The point and the digits behind it, if the text starts with a point, and the rest. -/
def scanFraction : List Char → Option (List Char) × List Char
  | '.' :: r => (some (spanDigits r).1, (spanDigits r).2)
  | r => (none, r)

/-- The leading exponent of a text, if it has one, and the rest. -/
def scanExponent (cs : List Char) : Option Exponent × List Char :=
  match Exponent.scan cs with
  | some (x, r) => (some x, r)
  | none => (none, cs)

/-- The leading numeral of a text, and the rest. -/
def scan (cs : List Char) : Option (Numeral × List Char) :=
  let (sign, r) := spanSign cs
  let (whole, r) := spanDigits r
  let (fraction, r) := scanFraction r
  if (whole ++ fraction.getD []).isEmpty then none
  else
    let (exponent, r) := scanExponent r
    some (⟨sign, whole, fraction, exponent⟩, r)

/-- A text that is one numeral from end to end. -/
def ofText? (cs : List Char) : Option Numeral :=
  match scan cs with
  | some (n, []) => some n
  | _ => none

/-- The number nearest to the numeral's exact value. -/
def value (n : Numeral) : Binary64 :=
  let fraction := n.fraction.getD []
  Binary64.ofDecimal (n.sign = some '-') (natOfDigits (n.whole ++ fraction))
    ((n.exponent.elim 0 Exponent.value) - fraction.length)

end Numeral

/-! ### What a scan keeps -/

theorem spanDigits_append (cs : List Char) : (spanDigits cs).1 ++ (spanDigits cs).2 = cs :=
  List.takeWhile_append_dropWhile

theorem isDigit_of_mem_spanDigits {cs : List Char} {c : Char} (h : c ∈ (spanDigits cs).1) :
    c.isDigit = true :=
  List.all_eq_true.1 List.all_takeWhile c h

theorem spanSign_append (cs : List Char) : (spanSign cs).1.toList ++ (spanSign cs).2 = cs := by
  cases cs with
  | nil => rfl
  | cons c r => by_cases h : c = '-' ∨ c = '+' <;> simp [spanSign, h]

theorem sign_of_mem_spanSign {cs : List Char} {c : Char} (h : c ∈ (spanSign cs).1) :
    c = '-' ∨ c = '+' := by
  cases cs with
  | nil => simp [spanSign] at h
  | cons d r =>
    by_cases hd : d = '-' ∨ d = '+'
    · simp only [spanSign, hd, ↓reduceIte, Option.mem_def, Option.some.injEq] at h
      exact h ▸ hd
    · simp [spanSign, hd] at h

theorem Exponent.append_of_scan {cs r : List Char} {x : Exponent} (h : scan cs = some (x, r)) :
    x.text ++ r = cs := by
  cases cs with
  | nil => simp [scan] at h
  | cons c cs =>
    simp only [scan] at h
    split at h
    · split at h
      · simp at h
      · obtain ⟨rfl, rfl⟩ : _ ∧ _ := by simpa using h
        simp [text, List.append_assoc, spanDigits_append, spanSign_append]
    · simp at h

theorem Exponent.wellFormed_of_scan {cs r : List Char} {x : Exponent}
    (h : scan cs = some (x, r)) : x.WellFormed := by
  cases cs with
  | nil => simp [scan] at h
  | cons c cs =>
    simp only [scan] at h
    split at h
    case isTrue mark =>
      split at h
      · simp at h
      · rename_i nonempty
        obtain ⟨rfl, rfl⟩ : _ ∧ _ := by simpa using h
        exact ⟨mark, fun _ => sign_of_mem_spanSign, fun _ => isDigit_of_mem_spanDigits,
          by simpa using nonempty⟩
    · simp at h

theorem Numeral.append_scanFraction (cs : List Char) :
    ((scanFraction cs).1.elim [] ('.' :: ·)) ++ (scanFraction cs).2 = cs := by
  unfold scanFraction
  split
  · simp [spanDigits_append]
  · simp

theorem Numeral.append_scanExponent (cs : List Char) :
    ((scanExponent cs).1.elim [] Exponent.text) ++ (scanExponent cs).2 = cs := by
  unfold scanExponent
  split
  · rename_i h; simpa using Exponent.append_of_scan h
  · simp

/-- **Nothing is lost.** The scanned numeral's text and the rest make up the input. -/
theorem Numeral.append_of_scan {cs r : List Char} {n : Numeral} (h : scan cs = some (n, r)) :
    n.text ++ r = cs := by
  simp only [scan] at h
  split at h
  · simp at h
  · obtain ⟨rfl, rfl⟩ : _ ∧ _ := by simpa using h
    simp only [text, List.append_assoc, append_scanExponent, append_scanFraction,
      spanDigits_append, spanSign_append]

/-- **Only numerals are scanned.** -/
theorem Numeral.wellFormed_of_scan {cs r : List Char} {n : Numeral} (h : scan cs = some (n, r)) :
    n.WellFormed := by
  simp only [scan] at h
  split at h
  · simp at h
  · rename_i nonempty
    obtain ⟨rfl, rfl⟩ : _ ∧ _ := by simpa using h
    refine ⟨fun _ => sign_of_mem_spanSign, fun _ => isDigit_of_mem_spanDigits, ?_,
      by simpa using nonempty, ?_⟩
    · intro ds hds c hc
      simp only [scanFraction] at hds
      split at hds
      · obtain rfl : _ = ds := by simpa using hds
        exact isDigit_of_mem_spanDigits hc
      · simp at hds
    · intro x hx
      simp only [scanExponent] at hx
      split at hx
      · rename_i hs
        obtain rfl : _ = x := by simpa using hx
        exact Exponent.wellFormed_of_scan hs
      · simp at hx

end Foundry.Decimal
