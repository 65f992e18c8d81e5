import Foundry.Artifact.Factory
import Foundry.Yaml.Plain
import Foundry.Yaml.Token.Scalar
import Mathlib.Tactic.SplitIfs

/-!
# String literals of C++

`readLiteral` reads a C++ string literal at the start of a text, by the rules of the language up to
C++20: the literal ends at the first quote that is no part of an escape sequence, and its line does
not end before. It denotes bytes. A character stands for its bytes in UTF-8, and so does a universal
character name (`\u`, `\U`); an octal or hexadecimal escape sequence is one byte. A carriage return
ends a line as a line feed does. Trigraphs are none of the language any more.

* `taken_of_readEscape`: what an escape sequence takes away, and that it denotes no more bytes than
  it has characters.
* `length_lt_of_readBody`: what follows a literal is shorter than the literal and it.
-/

namespace Foundry.Artifact.Literal

open Yaml

/-! ### Bytes -/

/-- The bytes of a text in UTF-8. -/
def bytes (cs : List Char) : List UInt8 :=
  cs.flatMap String.utf8EncodeChar

theorem bytes_cons (c : Char) (cs : List Char) :
    bytes (c :: cs) = String.utf8EncodeChar c ++ bytes cs :=
  List.flatMap_cons

theorem bytes_append (cs ds : List Char) : bytes (cs ++ ds) = bytes cs ++ bytes ds :=
  List.flatMap_append

theorem length_le_length_bytes (cs : List Char) : cs.length ≤ (bytes cs).length := by
  induction cs with
  | nil => exact Nat.le_refl 0
  | cons c cs ih =>
    have hpos := Char.utf8Size_pos c
    rw [bytes_cons, List.length_append, String.length_utf8EncodeChar, List.length_cons]
    omega

/-! ### Escape sequences -/

/-- The escape sequences of one letter, with what they stand for. -/
def simpleEscapes : List (Char × Char) :=
  [('\'', '\''), ('"', '"'), ('?', '?'), ('\\', '\\'), ('a', '\x07'), ('b', '\x08'), ('f', '\x0c'),
   ('n', '\n'), ('r', '\r'), ('t', '\t'), ('v', '\x0b')]

/-- The digits that a text starts with, up to some number of them. -/
def leadingDigits (base limit : Nat) (cs : List Char) : List Char :=
  (cs.take limit).takeWhile fun c => (digitValue? base c).isSome

/-- The byte with a number, if there is one. -/
def byte? (n : Nat) : Option (List UInt8) :=
  if n < 256 then some [UInt8.ofNat n] else none

/-- The bytes of the character with a code, if there is one. -/
def codeBytes? (n : Nat) : Option (List UInt8) :=
  (charOfCode? n).map String.utf8EncodeChar

/-- Reads the number that a text starts with; `digits` are its digits. -/
def readNumber (base : Nat) (value : Nat → Option (List UInt8)) (digits cs : List Char) :
    Option (List UInt8 × List Char) :=
  ((natOfBase? base digits).bind value).map fun out => (out, cs.drop digits.length)

/-- Reads the code of a character, which has a fixed number of digits. -/
def readCode (width : Nat) (cs : List Char) : Option (List UInt8 × List Char) :=
  if (leadingDigits 16 width cs).length = width then
    readNumber 16 codeBytes? (leadingDigits 16 width cs) cs
  else none

/-- Reads an escape sequence from behind its backslash: the bytes that it denotes, and what follows
it. -/
def readEscape : List Char → Option (List UInt8 × List Char)
  | [] => none
  | letter :: cs =>
    if letter = 'x' then readNumber 16 byte? (leadingDigits 16 cs.length cs) cs
    else if letter = 'u' then readCode 4 cs
    else if letter = 'U' then readCode 8 cs
    else
      match simpleEscapes.lookup letter with
      | some c => some (String.utf8EncodeChar c, cs)
      | none => readNumber 8 byte? (leadingDigits 8 3 (letter :: cs)) (letter :: cs)

variable {base limit width : Nat} {value : Nat → Option (List UInt8)} {c : Char}
  {cs digits rest used : List Char} {out : List UInt8}

/-- The characters that mean something of their own in a literal. -/
def Special (c : Char) : Prop :=
  c = '\\' ∨ c = '"'

instance (c : Char) : Decidable (Special c) :=
  inferInstanceAs (Decidable (c = '\\' ∨ c = '"'))

/-- No digit of any base is a quote or a backslash. -/
theorem not_special_of_digit (h : (digitValue? base c).isSome = true) : ¬ Special c := by
  have hhex : (hexValue? c).isSome = true := by
    rw [digitValue?] at h
    cases hc : hexValue? c with
    | none =>
      rw [hc] at h
      cases h
    | some v => rfl
  rintro (rfl | rfl)
  · exact absurd hhex (by decide)
  · exact absurd hhex (by decide)

/-- The digits of an escape sequence hide neither a quote nor a backslash. -/
theorem not_special_of_mem_leadingDigits (h : c ∈ leadingDigits base limit cs) : ¬ Special c := by
  have hdigit := List.all_eq_true.1 List.all_takeWhile c h
  exact not_special_of_digit hdigit

theorem leadingDigits_append_drop (base limit : Nat) (cs : List Char) :
    leadingDigits base limit cs ++ cs.drop (leadingDigits base limit cs).length = cs := by
  have hprefix : leadingDigits base limit cs <+: cs :=
    (List.takeWhile_prefix _).trans (List.take_prefix limit cs)
  exact List.prefix_iff_eq_append.1 hprefix

/-- A number has a digit, and it ends where its digits do. -/
theorem readNumber_eq_some (h : readNumber base value digits cs = some (out, rest)) :
    (∃ n, value n = some out) ∧ digits ≠ [] ∧ rest = cs.drop digits.length := by
  obtain ⟨_, hvalue, hrest⟩ := Option.map_eq_some_iff.1 h
  obtain ⟨rfl, rfl⟩ := Prod.mk.inj hrest
  obtain ⟨n, hn, hout⟩ := Option.bind_eq_some_iff.1 hvalue
  refine ⟨⟨n, hout⟩, ?_, rfl⟩
  rintro rfl
  cases hn

theorem length_of_byte? {n : Nat} (h : byte? n = some out) : out.length = 1 := by
  unfold byte? at h
  split at h
  · rw [← Option.some.inj h]
    rfl
  · cases h

theorem length_of_codeBytes? {n : Nat} (h : codeBytes? n = some out) : out.length ≤ 4 := by
  obtain ⟨c, _, rfl⟩ := Option.map_eq_some_iff.1 h
  rw [String.length_utf8EncodeChar]
  exact Char.utf8Size_le_four c

theorem length_of_lookup {letter : Char} (h : simpleEscapes.lookup letter = some c) :
    (String.utf8EncodeChar c).length = 1 := by
  have hall : ∀ e ∈ simpleEscapes, (String.utf8EncodeChar e.2).length = 1 := by decide
  obtain ⟨before, after, hsplit, _⟩ := List.lookup_eq_some_iff.1 h
  exact hall (letter, c) (by rw [hsplit]; simp)

/-- A code has all its digits, and its character has four bytes at most. -/
theorem readCode_eq_some (h : readCode width cs = some (out, rest)) :
    out.length ≤ 4 ∧ (leadingDigits 16 width cs).length = width ∧
      rest = cs.drop (leadingDigits 16 width cs).length := by
  unfold readCode at h
  split at h
  · rename_i hwidth
    obtain ⟨⟨n, hn⟩, _, hrest⟩ := readNumber_eq_some h
    exact ⟨length_of_codeBytes? hn, hwidth, hrest⟩
  · cases h

/-- What an escape sequence takes away behind the backslash. -/
structure Taken (cs used rest : List Char) (out : List UInt8) : Prop where
  append : cs = used ++ rest
  ne_nil : used ≠ []
  length_le : out.length ≤ used.length
  plain : (∃ c, used = [c]) ∨ ∀ c ∈ used, ¬ Special c

/-- Digits behind a letter. -/
theorem taken_cons_leadingDigits {letter : Char} (hletter : ¬ Special letter)
    (hlength : out.length ≤ (leadingDigits base limit cs).length + 1)
    (hrest : rest = cs.drop (leadingDigits base limit cs).length) :
    Taken (letter :: cs) (letter :: leadingDigits base limit cs) rest out where
  append := by rw [hrest, List.cons_append, leadingDigits_append_drop]
  ne_nil := List.cons_ne_nil _ _
  length_le := hlength
  plain := Or.inr (List.forall_mem_cons.2
    ⟨hletter, fun _ => not_special_of_mem_leadingDigits⟩)

/-- The code of a character takes its letter and its digits. -/
theorem taken_of_readCode {letter : Char} (hletter : ¬ Special letter) (hwidth : 4 ≤ width)
    (h : readCode width cs = some (out, rest)) :
    Taken (letter :: cs) (letter :: leadingDigits 16 width cs) rest out := by
  obtain ⟨hle, hlength, hrest⟩ := readCode_eq_some h
  exact taken_cons_leadingDigits hletter (by omega) hrest

/-- **Escape sequences.** An escape sequence takes one character, or several of which none is a
quote or a backslash; and it denotes no more bytes than it takes characters. -/
theorem taken_of_readEscape (h : readEscape cs = some (out, rest)) :
    ∃ used, Taken cs used rest out := by
  cases cs with
  | nil => cases h
  | cons letter cs =>
    rw [readEscape] at h
    split_ifs at h with hx hu hU
    · obtain ⟨⟨n, hn⟩, _, hrest⟩ := readNumber_eq_some h
      have hlength := length_of_byte? hn
      exact ⟨_, taken_cons_leadingDigits (by rw [hx]; decide) (by omega) hrest⟩
    -- Four digits or eight: as many as any character has bytes.
    · exact ⟨_, taken_of_readCode (by rw [hu]; decide) (by decide) h⟩
    · exact ⟨_, taken_of_readCode (by rw [hU]; decide) (by decide) h⟩
    · split at h
      · rename_i c hc
        obtain ⟨rfl, rfl⟩ := Prod.mk.inj (Option.some.inj h)
        have hlength := Nat.le_of_eq (length_of_lookup hc)
        exact ⟨[letter], rfl, List.cons_ne_nil _ _, hlength, Or.inl ⟨letter, rfl⟩⟩
      -- An octal sequence has no letter of its own, only digits.
      · obtain ⟨⟨n, hn⟩, hne, hrest⟩ := readNumber_eq_some h
        refine ⟨leadingDigits 8 3 (letter :: cs), ?_, hne, ?_,
          Or.inr fun _ => not_special_of_mem_leadingDigits⟩
        · rw [hrest, leadingDigits_append_drop]
        · rw [length_of_byte? hn]
          exact List.length_pos_iff.2 hne

/-- What follows an escape sequence is shorter than the text that starts with it. -/
theorem length_lt_of_readEscape (h : readEscape cs = some (out, rest)) :
    rest.length < cs.length := by
  obtain ⟨used, htaken⟩ := taken_of_readEscape h
  have hpos := List.length_pos_iff.2 htaken.ne_nil
  rw [htaken.append, List.length_append]
  omega

/-! ### Literals -/

/-- Reads a string literal from behind its first quote: the bytes that it denotes, and what follows
the quote that ends it. -/
def readBody : List Char → Option (List UInt8 × List Char)
  | [] => none
  | c :: cs =>
    if c = '"' then some ([], cs)
    else if c = '\\' then
      match h : readEscape cs with
      | some (out, rest) =>
        have := length_lt_of_readEscape h
        (readBody rest).map fun (more, rest) => (out ++ more, rest)
      | none => none
    else if c = '\n' ∨ c = '\r' then none
    else (readBody cs).map fun (more, rest) => (String.utf8EncodeChar c ++ more, rest)
termination_by cs => cs.length
decreasing_by
  · simp_wf
    omega
  · simp_wf

/-- Reads the string literal that a text starts with. -/
def readLiteral : List Char → Option (List UInt8 × List Char)
  | '"' :: cs => readBody cs
  | _ => none

theorem readBody_quote (cs : List Char) : readBody ('"' :: cs) = some ([], cs) := by
  rw [readBody, if_pos rfl]

theorem readBody_escape (h : readEscape cs = some (out, rest)) :
    readBody ('\\' :: cs) = (readBody rest).map fun r => (out ++ r.1, r.2) := by
  rw [readBody, if_neg (by decide), if_pos rfl]
  split
  · rename_i h'
    rw [h] at h'
    obtain ⟨rfl, rfl⟩ := Prod.mk.inj (Option.some.inj h')
    rfl
  · rename_i h'
    rw [h] at h'
    cases h'

/-- If a literal goes on with a backslash, it does so with an escape sequence. -/
theorem readBody_escape_eq_some {r : List UInt8 × List Char} (h : readBody ('\\' :: cs) = some r) :
    ∃ out rest more, readEscape cs = some (out, rest) ∧ readBody rest = some more ∧
      r = (out ++ more.1, more.2) := by
  cases hescape : readEscape cs with
  | none =>
    rw [readBody, if_neg (by decide), if_pos rfl] at h
    split at h
    · rename_i h'
      rw [hescape] at h'
      cases h'
    · cases h
  | some e =>
    obtain ⟨out, rest⟩ := e
    rw [readBody_escape hescape] at h
    obtain ⟨more, hmore, rfl⟩ := Option.map_eq_some_iff.1 h
    exact ⟨out, rest, more, rfl, hmore, rfl⟩

theorem readBody_lineEnd (h : c = '\n' ∨ c = '\r') (cs : List Char) :
    readBody (c :: cs) = none := by
  rcases h with rfl | rfl
  · rw [readBody, if_neg (by decide), if_neg (by decide), if_pos (Or.inl rfl)]
  · rw [readBody, if_neg (by decide), if_neg (by decide), if_pos (Or.inr rfl)]

theorem readBody_plain (hspecial : ¬ Special c) (hline : ¬ (c = '\n' ∨ c = '\r'))
    (cs : List Char) :
    readBody (c :: cs) = (readBody cs).map fun r => (String.utf8EncodeChar c ++ r.1, r.2) := by
  rw [Special, not_or] at hspecial
  rw [readBody, if_neg hspecial.2, if_neg hspecial.1, if_neg hline]

/-- What follows a literal is shorter than the text that starts with the literal. -/
theorem length_lt_of_readBody (h : readBody cs = some (out, rest)) : rest.length < cs.length := by
  -- An escape sequence takes several characters at once, so the induction is on the length.
  induction hn : cs.length using Nat.strongRecOn generalizing cs out rest with
  | ind n ih =>
    subst hn
    cases cs with
    | nil =>
      rw [readBody] at h
      cases h
    | cons c cs =>
      rw [List.length_cons]
      by_cases hquote : c = '"'
      · rw [hquote, readBody_quote] at h
        obtain ⟨_, rfl⟩ := Prod.mk.inj (Option.some.inj h)
        exact Nat.lt_succ_self _
      by_cases hescape : c = '\\'
      · rw [hescape] at h
        obtain ⟨_, behind, ⟨more, rest'⟩, hread, hmore, hr⟩ := readBody_escape_eq_some h
        obtain ⟨_, rfl⟩ := Prod.mk.inj hr
        have hlt := length_lt_of_readEscape hread
        have hlt' := ih _ (Nat.lt_succ_of_lt hlt) hmore rfl
        omega
      by_cases hline : c = '\n' ∨ c = '\r'
      · rw [readBody_lineEnd hline] at h
        cases h
      · rw [readBody_plain (by rintro (h | h) <;> contradiction) hline] at h
        obtain ⟨⟨more, rest'⟩, hmore, hr⟩ := Option.map_eq_some_iff.1 h
        obtain ⟨_, rfl⟩ := Prod.mk.inj hr
        exact Nat.lt_succ_of_lt (ih _ (Nat.lt_succ_self _) hmore rfl)

end Foundry.Artifact.Literal
