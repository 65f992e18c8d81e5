import Foundry.Artifact.Loader
import Mathlib.Data.List.Forall2

/-!
# Texts made into identifiers

`factoryName` and `identifierStem` replace some characters of a free text by `_` and leave all
others. So what they make is an identifier of C++ only if the text is `Usable`: it has no other
character than those of identifiers and those that are replaced, and it does not start with a digit.
A text whose replaced characters stand where another has the same, or a `_`, becomes the same name.

* `isIdentifier_underscored_append`: when an underscored text with a suffix is an identifier.
* `isIdentifier_factoryName`, `isIdentifier_identifierStem_append`: both makers of names.
* `factoryName_eq_iff`: which texts share a factory class.
-/

namespace Foundry

variable {replaced : List Char} {s a b suffix : String} {c d : Char}

/-! ### Identifiers -/

/-- A letter, a digit or `_`. -/
def IsWord (c : Char) : Prop :=
  c.isAlphanum = true ∨ c = '_'

instance (c : Char) : Decidable (IsWord c) :=
  inferInstanceAs (Decidable (_ ∨ _))

/-- An identifier of C++: letters, digits and `_`, no digit in front. -/
structure IsIdentifier (s : String) : Prop where
  nonempty : s.toList ≠ []
  isWord : ∀ c ∈ s.toList, IsWord c
  start : ∀ c ∈ s.toList.head?, c.isDigit = false

/-- A text that only has characters of identifiers and those that are replaced, and no digit in
front. -/
structure Usable (replaced : List Char) (s : String) : Prop where
  isWord : ∀ c ∈ s.toList, IsWord c ∨ c ∈ replaced
  start : ∀ c ∈ s.toList.head?, c.isDigit = false

theorem forall_head?_iff {cs : List Char} : cs.head?.all (fun c => !c.isDigit) = true ↔
    ∀ c ∈ cs.head?, c.isDigit = false := by
  simp only [Option.all_eq_true, Option.mem_def, Bool.not_eq_true']

theorem isIdentifier_iff : (s.toList ≠ [] ∧ s.toList.all (fun c => decide (IsWord c)) = true ∧
    s.toList.head?.all (fun c => !c.isDigit) = true) ↔ IsIdentifier s := by
  rw [List.all_eq_true, forall_head?_iff]
  simp only [decide_eq_true_eq]
  exact ⟨fun ⟨hne, hword, hstart⟩ => ⟨hne, hword, hstart⟩,
    fun h => ⟨h.nonempty, h.isWord, h.start⟩⟩

instance (s : String) : Decidable (IsIdentifier s) :=
  decidable_of_iff _ isIdentifier_iff

theorem usable_iff : (s.toList.all (fun c => decide (IsWord c ∨ c ∈ replaced)) = true ∧
    s.toList.head?.all (fun c => !c.isDigit) = true) ↔ Usable replaced s := by
  rw [List.all_eq_true, forall_head?_iff]
  simp only [decide_eq_true_eq]
  exact ⟨fun ⟨hword, hstart⟩ => ⟨hword, hstart⟩, fun h => ⟨h.isWord, h.start⟩⟩

instance (replaced : List Char) (s : String) : Decidable (Usable replaced s) :=
  decidable_of_iff _ usable_iff

/-! ### Underscores -/

/-- The character that stands for another in an underscored text. -/
def underscore (replaced : List Char) (c : Char) : Char :=
  if replaced.contains c then '_' else c

theorem toList_underscored (replaced : List Char) (s : String) :
    (underscored replaced s).toList = s.toList.map (underscore replaced) := by
  rw [underscored, String.toList_ofList]
  rfl

/-- A character comes out as one of a word if it is one, or if it is replaced. -/
theorem isWord_underscore : IsWord (underscore replaced c) ↔ IsWord c ∨ c ∈ replaced := by
  unfold underscore
  split_ifs with h
  · rw [List.contains_iff_mem] at h
    exact iff_of_true (Or.inr rfl) (Or.inr h)
  · rw [List.contains_iff_mem] at h
    rw [or_iff_left h]

/-- No digit is replaced, and none comes in. -/
theorem isDigit_underscore (hreplaced : ∀ c ∈ replaced, c.isDigit = false) :
    (underscore replaced c).isDigit = c.isDigit := by
  unfold underscore
  split_ifs with h
  · rw [List.contains_iff_mem] at h
    rw [hreplaced c h]
    rfl
  · rfl

/-- Two characters are written alike if they are one, or if a `_` stands for each of them. -/
theorem underscore_eq_iff :
    underscore replaced c = underscore replaced d ↔
      c = d ∨ c ∈ '_' :: replaced ∧ d ∈ '_' :: replaced := by
  unfold underscore
  simp only [List.contains_iff_mem, List.mem_cons]
  split_ifs with hc hd hd
  · simp [hc, hd]
  · grind
  · grind
  · grind

/-- **When an underscored text becomes an identifier** with something behind it that is one. -/
theorem isIdentifier_underscored_append (hreplaced : ∀ c ∈ replaced, c.isDigit = false)
    (hsuffix : IsIdentifier suffix) :
    IsIdentifier (underscored replaced s ++ suffix) ↔ Usable replaced s := by
  have hchars : (underscored replaced s ++ suffix).toList =
      s.toList.map (underscore replaced) ++ suffix.toList := by
    rw [String.toList_append, toList_underscored]
  constructor
  · rintro ⟨-, hword, hstart⟩
    rw [hchars] at hword hstart
    refine ⟨fun c hc => isWord_underscore.1 ?_, fun c hc => ?_⟩
    · exact hword _ (List.mem_append_left _ (List.mem_map_of_mem hc))
    · rw [← isDigit_underscore hreplaced]
      refine hstart _ ?_
      rw [List.head?_append, List.head?_map, Option.mem_def.1 hc]
      rfl
  · rintro ⟨hword, hstart⟩
    refine ⟨?_, ?_, ?_⟩
    · rw [hchars]
      exact List.append_ne_nil_of_right_ne_nil _ hsuffix.nonempty
    · rw [hchars, List.forall_mem_append, List.forall_mem_map]
      exact ⟨fun c hc => isWord_underscore.2 (hword c hc), hsuffix.isWord⟩
    · rw [hchars]
      cases hs : s.toList with
      | nil => exact hsuffix.start
      | cons c cs =>
        intro d hd
        rw [← Option.some.inj hd, isDigit_underscore hreplaced]
        exact hstart c (by rw [hs]; rfl)

/-- Texts come out alike exactly if they differ in underscores and replaced characters only. -/
theorem underscored_eq_iff : underscored replaced a = underscored replaced b ↔
    List.Forall₂ (fun c d => c = d ∨ c ∈ '_' :: replaced ∧ d ∈ '_' :: replaced)
      a.toList b.toList := by
  rw [← String.toList_inj, toList_underscored, toList_underscored, ← List.forall₂_eq_eq_eq,
    List.forall₂_map_left_iff, List.forall₂_map_right_iff]
  simp only [underscore_eq_iff]

/-! ### Names -/

/-- Texts that agree but for dashes, which may stand where the other text has a dash or a `_`. -/
def SameButDashes (a b : String) : Prop :=
  List.Forall₂ (fun c d => c = d ∨ c ∈ ['_', '-'] ∧ d ∈ ['_', '-']) a.toList b.toList

instance (a b : String) : Decidable (SameButDashes a b) :=
  inferInstanceAs (Decidable (List.Forall₂ _ _ _))

/-- **When a factory class is an identifier.** -/
theorem isIdentifier_factoryName : IsIdentifier (factoryName s) ↔ Usable ['-'] s :=
  isIdentifier_underscored_append (List.forall_mem_singleton.2 rfl) (by decide)

/-- **When a name of a loader is an identifier**, whatever is behind its stem. -/
theorem isIdentifier_identifierStem_append (hsuffix : IsIdentifier suffix) :
    IsIdentifier (identifierStem s ++ suffix) ↔ Usable ['-', '.'] s :=
  isIdentifier_underscored_append
    (List.forall_mem_cons.2 ⟨rfl, List.forall_mem_singleton.2 rfl⟩) hsuffix

/-- **Which texts share a factory class.** -/
theorem factoryName_eq_iff : factoryName a = factoryName b ↔ SameButDashes a b := by
  have hsame : SameButDashes a b ↔ underscored ['-'] a = underscored ['-'] b :=
    underscored_eq_iff.symm
  rw [factoryName, factoryName, hsame]
  constructor
  · intro h
    have hchars := congrArg String.toList h
    rw [String.toList_append, String.toList_append, List.append_cancel_right_eq] at hchars
    exact String.toList_inj.1 hchars
  · rintro h
    rw [h]

end Foundry
