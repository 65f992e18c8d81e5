import Foundry.Proofs.Decimal.Spelling
import Foundry.Proofs.Parameter.Nesting
import Foundry.Proofs.Related

/-!
# Characters of literals

Whatever a literal is written with is printable, but for the strings that it quotes: these are
copied as they are. So any other character of a literal, a line feed above all, comes from a string
of the value, and only where the type is that of strings or of vectors around it.

* `printable_spell`, `printable_int`: numbers in text.
* `mem_stringLiteral_iff`, `printable_of_literal`: the scalar types.
* `mem_literal_iff`: all types.
-/

namespace Foundry

/-- A printable character of ASCII, the blank among them. -/
def Printable (c : Char) : Prop :=
  ' ' ≤ c ∧ c ≤ '~'

instance (c : Char) : Decidable (Printable c) :=
  inferInstanceAs (Decidable (_ ∧ _))

variable {c : Char}

/-- Whether a text is printable throughout can be evaluated. -/
theorem printable_of_mem {s : String} (h : s.toList.all (fun c => decide (Printable c)) = true)
    (hc : c ∈ s.toList) : Printable c :=
  of_decide_eq_true (List.all_eq_true.1 h c hc)

namespace Yaml.Node

variable {n : Node} {items : List Node}

/-- The character stands in a string of the value: in the value itself or in an item of a sequence,
under any tags. -/
inductive Contains (c : Char) : Node → Prop
  | str {s : String} (h : c ∈ s.toList) : Contains c (.str s)
  | seq {items : List Node} {item : Node} (hitem : item ∈ items) (h : Contains c item) :
    Contains c (.seq items)
  | tagged {tag : String} {n : Node} (h : Contains c n) : Contains c (.tagged tag n)

theorem contains_str_iff {s : String} : (Node.str s).Contains c ↔ c ∈ s.toList :=
  ⟨fun h => by cases h; assumption, .str⟩

/-- Tags around a value are no part of its texts. -/
theorem contains_bare_iff : n.bare.Contains c ↔ n.Contains c := by
  induction n using bare.induct with
  | case1 tag n ih =>
    rw [bare, ih]
    exact ⟨.tagged, fun h => by cases h; assumption⟩
  | case2 n h =>
    cases n with
    | tagged tag n => exact absurd rfl (h tag n)
    | _ => exact Iff.rfl

theorem contains_iff_of_seq (h : n.bare = .seq items) :
    n.Contains c ↔ ∃ item ∈ items, item.Contains c := by
  rw [← contains_bare_iff, h]
  constructor
  · intro h
    cases h with
    | seq hitem h => exact ⟨_, hitem, h⟩
  · rintro ⟨item, hitem, h⟩
    exact .seq hitem h

end Yaml.Node

open Decimal Parameter Yaml

/-! ### Numbers -/

theorem printable_of_isDigit (h : c.isDigit = true) : Printable c := by
  rw [Char.isDigit, Bool.and_eq_true, decide_eq_true_eq, decide_eq_true_eq] at h
  exact ⟨UInt32.le_trans (by decide) h.1, UInt32.le_trans h.2 (by decide)⟩

theorem printable_int {i : Int} (hc : c ∈ (toString i).toList) : Printable c := by
  rcases sign_or_digit_of_mem_int hc with rfl | hdigit
  · decide
  · exact printable_of_isDigit hdigit

theorem printable_of_mem_numeral {n : Numeral} (h : n.WellFormed) (hc : c ∈ n.text) :
    Printable c := by
  rcases Numeral.mem_text h hc with hdigit | hsign
  · exact printable_of_isDigit hdigit
  · have hall : ['-', '+', '.', 'e', 'E'].all (fun d => decide (Printable d)) = true := by decide
    exact of_decide_eq_true (List.all_eq_true.1 hall c hsign)

/-- A number is printed with printable characters if what stands for the others is. -/
theorem printable_spell {form : Spelling}
    (hnan : form.nan.toList.all (fun c => decide (Printable c)) = true)
    (hinfinity : form.infinity.toList.all (fun c => decide (Printable c)) = true) {x : Binary64}
    (hc : c ∈ (form.spell x).toList) : Printable c := by
  cases x with
  | nan => exact printable_of_mem hnan hc
  | infinity negative =>
    rw [Spelling.spell, String.toList_append, List.mem_append] at hc
    rcases hc with hc | hc
    · cases negative with
      | false => cases hc
      | true =>
        obtain rfl : c = '-' := by simpa using hc
        decide
    · exact printable_of_mem hinfinity hc
  | finite negative m e valid =>
    rw [Spelling.toList_spell_finite] at hc
    have hwell := (Spelling.wellFormed_magnitudeNumeral form m e).signed negative
    exact printable_of_mem_numeral hwell hc

theorem printable_literal_spell {x : Binary64} (hc : c ∈ (Spelling.literal.spell x).toList) :
    Printable c :=
  printable_spell (by decide) (by decide) hc

/-! ### Scalars -/

variable {s : Scalar} {n : Node} {text : String}

/-- A text between quotes has the characters of the text, and printable ones. -/
theorem mem_quote_iff (hc : ¬ Printable c) (text : String) :
    c ∈ ("\"" ++ text ++ "\"").toList ↔ c ∈ text.toList := by
  have hquote : c ∉ "\"".toList := fun h => hc (printable_of_mem (by decide) h)
  rw [String.toList_append, String.toList_append, List.mem_append, List.mem_append,
    or_iff_left hquote, or_iff_right hquote]

/-- Only a string has other characters in its text than printable ones. -/
theorem mem_text?_iff (hc : ¬ Printable c) :
    c ∈ (n.text?.getD "").toList ↔ ∃ s, n = .str s ∧ c ∈ s.toList := by
  have hnone : c ∉ "".toList := List.not_mem_nil
  cases n with
  | null => exact iff_of_false hnone nofun
  | bool b =>
    refine iff_of_false (fun hmem => hc ?_) nofun
    cases b with
    | false => exact printable_of_mem (by decide) hmem
    | true => exact printable_of_mem (by decide) hmem
  | int i => exact iff_of_false (fun hmem => hc (printable_int hmem)) nofun
  | float x =>
    exact iff_of_false (fun hmem => hc (printable_spell (by decide) (by decide) hmem)) nofun
  | str s =>
    constructor
    · intro hmem
      exact ⟨s, rfl, hmem⟩
    · rintro ⟨_, ⟨⟩, hmem⟩
      exact hmem
  | seq items => exact iff_of_false hnone nofun
  | map entries => exact iff_of_false hnone nofun
  | tagged tag m => exact iff_of_false hnone nofun

/-- A string literal is the text of a scalar between quotes. -/
theorem stringLiteral_eq_ok (h : Scalar.stringLiteral n = .ok text) :
    (∀ items, n.bare ≠ .seq items) ∧ text = "\"" ++ n.bare.text?.getD "" ++ "\"" := by
  unfold Scalar.stringLiteral at h
  dsimp only at h
  split at h
  · rename_i hnull
    rw [hnull, ← Except.ok.inj h]
    exact ⟨nofun, rfl⟩
  · cases h
  · cases h
  · rename_i hseq _
    exact ⟨hseq, (Except.ok.inj h).symm⟩

/-- **Strings are copied.** -/
theorem mem_stringLiteral_iff (hc : ¬ Printable c) (h : Scalar.stringLiteral n = .ok text) :
    c ∈ text.toList ↔ n.Contains c := by
  obtain ⟨hseq, rfl⟩ := stringLiteral_eq_ok h
  rw [mem_quote_iff hc, mem_text?_iff hc, ← Node.contains_bare_iff]
  constructor
  · rintro ⟨s, hs, hmem⟩
    rw [hs]
    exact .str hmem
  · intro hmem
    cases hn : n.bare with
    | str s =>
      rw [hn] at hmem
      exact ⟨s, rfl, Node.contains_str_iff.1 hmem⟩
    | seq items => exact absurd hn (hseq items)
    | tagged tag m => exact absurd hn (Node.bare_ne_tagged n tag m)
    | _ =>
      rw [hn] at hmem
      cases hmem

/-- **All other literals are printable.** -/
theorem printable_of_literal (hs : s ≠ .string) (h : s.literal n = .ok text)
    (hc : c ∈ text.toList) : Printable c := by
  have hfloat : ∀ target, Scalar.floatLiteral target n = .ok text → Printable c := by
    intro target h
    unfold Scalar.floatLiteral at h
    split at h
    · rw [← Except.ok.inj h] at hc
      exact printable_int hc
    · obtain ⟨x, _, rfl⟩ := map_eq_ok_iff.1 h
      exact printable_literal_spell hc
  cases s with
  | string => exact absurd rfl hs
  | integer t =>
    obtain ⟨i, _, rfl⟩ := map_eq_ok_iff.1 h
    exact printable_int hc
  | double => exact hfloat "double" h
  | float => exact hfloat "float" h
  | boolean =>
    obtain ⟨b, _, rfl⟩ := map_eq_ok_iff.1 h
    cases b with
    | false => exact printable_of_mem (by decide) hc
    | true => exact printable_of_mem (by decide) hc
  | time =>
    obtain ⟨⟨x, unit⟩, _, h⟩ := bind_eq_ok_iff.1 h
    dsimp only at h
    split at h
    · rw [← Except.ok.inj h] at hc
      simp only [String.toList_append, List.mem_append] at hc
      rcases hc with (((hc | hc) | hc) | hc) | hc
      · exact printable_of_mem (by decide) hc
      · unfold magnitudeLiteral at hc
        split at hc
        · split at hc
          · exact printable_int hc
          · exact printable_literal_spell hc
        · exact printable_literal_spell hc
      · exact printable_of_mem (by decide) hc
      · cases unit <;> exact printable_of_mem (by decide) hc
      · exact printable_of_mem (by decide) hc
    · cases h

/-! ### All types -/

namespace Parameter

/-- The scalar type in the innermost vectors. -/
def DeclaredType.base : DeclaredType → Scalar
  | scalar s => s
  | vector element => element.base

variable {T : DeclaredType}

/-- A character that is not in the separator comes from one of the texts. -/
theorem mem_intercalate_iff {sep : List Char} (hsep : c ∉ sep) (texts : List (List Char)) :
    c ∈ sep.intercalate texts ↔ ∃ text ∈ texts, c ∈ text := by
  induction texts with
  | nil => simp
  | cons text texts ih =>
    cases texts with
    | nil => simp
    | cons next texts =>
      rw [List.intercalate_cons_cons, List.mem_append, List.mem_append, or_iff_left hsep, ih]
      simp

/-- A vector is written with the literals of its items, and printable characters. -/
theorem mem_vectorText_iff (hc : ¬ Printable c) (elements : List String) :
    c ∈ (vectorText elements).toList ↔ ∃ element ∈ elements, c ∈ element.toList := by
  have hopen : c ∉ "\x7b".toList := fun h => hc (printable_of_mem (by decide) h)
  have hcomma : c ∉ ", ".toList := fun h => hc (printable_of_mem (by decide) h)
  have hclose : c ∉ "\x7d".toList := fun h => hc (printable_of_mem (by decide) h)
  cases elements with
  | nil =>
    have hempty : c ∉ "\x7b \x7d".toList := fun h => hc (printable_of_mem (by decide) h)
    exact iff_of_false hempty (by simp)
  | cons element elements =>
    rw [vectorText, braced, String.toList_append, String.toList_append, List.mem_append,
      List.mem_append, or_iff_left hclose, or_iff_right hopen, String.toList_intercalate,
      mem_intercalate_iff hcomma]
    · simp
    · exact List.cons_ne_nil element elements

/-- **What literals are made of.** A character that is not printable stands in a literal exactly if
the type is that of strings, or of vectors around it, and a string of the value has the
character. -/
theorem mem_literal_iff (hc : ¬ Printable c) (h : T.converter.convert n = .ok text) :
    c ∈ text.toList ↔ T.base = .string ∧ n.Contains c := by
  induction T generalizing n text with
  | scalar s =>
    by_cases hs : s = .string
    · subst hs
      exact (mem_stringLiteral_iff hc h).trans (and_iff_right rfl).symm
    · exact iff_of_false (fun hmem => hc (printable_of_literal hs h hmem)) fun hbase => hs hbase.1
  | vector element ih =>
    by_cases hseq : ∃ items, n.bare = .seq items
    · obtain ⟨items, hitems⟩ := hseq
      rw [DeclaredType.converter, convert_vector_eq hitems, map_eq_ok_iff] at h
      obtain ⟨elements, helements, rfl⟩ := h
      rw [mapM_eq_ok_iff] at helements
      rw [mem_vectorText_iff hc, Node.contains_iff_of_seq hitems, DeclaredType.base]
      constructor
      · rintro ⟨literal, hliteral, hmem⟩
        obtain ⟨item, hitem, hconvert⟩ := exists_of_forall₂ helements.flip hliteral
        obtain ⟨hbase, hcontains⟩ := (ih hconvert).1 hmem
        exact ⟨hbase, item, hitem, hcontains⟩
      · rintro ⟨hbase, item, hitem, hcontains⟩
        obtain ⟨literal, hliteral, hconvert⟩ := exists_of_forall₂ helements hitem
        exact ⟨literal, hliteral, (ih hconvert).2 ⟨hbase, hcontains⟩⟩
    · rw [not_exists] at hseq
      rw [DeclaredType.converter, convert_vector_of_not_seq _ hseq] at h
      cases h

/-- No type is written with other characters in C++. -/
theorem printable_ccType (hc : c ∈ T.ccType.toList) : Printable c := by
  induction T with
  | scalar s =>
    have hall : ∀ s ∈ Scalar.all, s.ccType.toList.all (fun c => decide (Printable c)) = true := by
      decide
    exact printable_of_mem (hall s s.mem_all) hc
  | vector element ih =>
    rw [DeclaredType.ccType, String.toList_append, String.toList_append, List.mem_append,
      List.mem_append] at hc
    rcases hc with (hc | hc) | hc
    · exact printable_of_mem (by decide) hc
    · exact ih hc
    · exact printable_of_mem (by decide) hc

end Parameter

end Foundry
