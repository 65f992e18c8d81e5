/-!
# Blank characters

`isBlank` is the Unicode property `White_Space`: twenty-five characters, in ten ranges. Text is
trimmed by this property, so a no-break space or a line separator around a value does not count.

* `trim_eq_self`: text that neither starts nor ends with a blank is left alone.
* `trim_append`, `exists_trim`: trimming takes the blanks around a text away, and nothing else.
* `trim_trim`: what was trimmed has no blanks around it.
-/

namespace Foundry.Text

/-- The ranges of the Unicode property `White_Space`, both ends included. -/
def blankRanges : List (Nat × Nat) :=
  [(0x09, 0x0D), (0x20, 0x20), (0x85, 0x85), (0xA0, 0xA0), (0x1680, 0x1680), (0x2000, 0x200A),
   (0x2028, 0x2029), (0x202F, 0x202F), (0x205F, 0x205F), (0x3000, 0x3000)]

/-- A character with the Unicode property `White_Space`. -/
def isBlank (c : Char) : Bool :=
  blankRanges.any fun (first, last) => first ≤ c.toNat && c.toNat ≤ last

/-- The text without the blanks it starts with. -/
def trimStart (cs : List Char) : List Char :=
  cs.dropWhile isBlank

/-- The text without the blanks it ends with. -/
def trimEnd (cs : List Char) : List Char :=
  (cs.reverse.dropWhile isBlank).reverse

/-- The text without the blanks around it. -/
def trim (cs : List Char) : List Char :=
  trimEnd (trimStart cs)

/-- A string without the blanks around it. -/
def trimmed (s : String) : String :=
  String.ofList (trim s.toList)

theorem trimStart_cons_of_not_isBlank {c : Char} (h : isBlank c = false) (cs : List Char) :
    trimStart (c :: cs) = c :: cs := by
  simp [trimStart, h]

theorem trimEnd_append_singleton {c : Char} (h : isBlank c = false) (cs : List Char) :
    trimEnd (cs ++ [c]) = cs ++ [c] := by
  simp [trimEnd, h]

theorem trimStart_eq_self {cs : List Char} (first : ∀ c ∈ cs.head?, isBlank c = false) :
    trimStart cs = cs := by
  cases cs with
  | nil => rfl
  | cons c r => exact trimStart_cons_of_not_isBlank (first c rfl) r

theorem trimEnd_eq_self {cs : List Char} (last : ∀ c ∈ cs.getLast?, isBlank c = false) :
    trimEnd cs = cs := by
  rcases List.eq_nil_or_concat cs with rfl | ⟨r, c, rfl⟩
  · rfl
  · rw [List.concat_eq_append] at last ⊢
    exact trimEnd_append_singleton (last c (by simp)) r

/-- **Trimming leaves unpadded text alone.** -/
theorem trim_eq_self {cs : List Char} (first : ∀ c ∈ cs.head?, isBlank c = false)
    (last : ∀ c ∈ cs.getLast?, isBlank c = false) : trim cs = cs := by
  rw [trim, trimStart_eq_self first, trimEnd_eq_self last]

/-! ### Blanks around a text -/

/-- A text of blanks only. -/
def AllBlank (cs : List Char) : Prop :=
  ∀ c ∈ cs, isBlank c = true

instance (cs : List Char) : Decidable (AllBlank cs) :=
  decidable_of_iff (cs.all isBlank = true) List.all_eq_true

theorem allBlank_nil : AllBlank [] := nofun

theorem AllBlank.append {as bs : List Char} (ha : AllBlank as) (hb : AllBlank bs) :
    AllBlank (as ++ bs) :=
  List.forall_mem_append.2 ⟨ha, hb⟩

theorem trimStart_append {before : List Char} (h : AllBlank before) (cs : List Char) :
    trimStart (before ++ cs) = trimStart cs :=
  List.dropWhile_append_of_pos h

theorem trimEnd_append {after : List Char} (h : AllBlank after) (cs : List Char) :
    trimEnd (cs ++ after) = trimEnd cs := by
  rw [trimEnd, List.reverse_append, List.dropWhile_append_of_pos]
  · rfl
  · intro c hc
    exact h c (List.mem_reverse.1 hc)

/-- **Blanks around a text are what trimming takes away.** -/
theorem trim_append {before after cs : List Char} (hbefore : AllBlank before)
    (hafter : AllBlank after) (nonempty : cs ≠ []) (first : ∀ c ∈ cs.head?, isBlank c = false)
    (last : ∀ c ∈ cs.getLast?, isBlank c = false) : trim (before ++ cs ++ after) = cs := by
  have hfirst : ∀ c ∈ (cs ++ after).head?, isBlank c = false := by
    cases cs with
    | nil => exact absurd rfl nonempty
    | cons c r => exact first
  rw [trim, List.append_assoc, trimStart_append hbefore, trimStart_eq_self hfirst,
    trimEnd_append hafter, trimEnd_eq_self last]

theorem exists_trimStart (cs : List Char) :
    ∃ before, AllBlank before ∧ before ++ trimStart cs = cs :=
  ⟨cs.takeWhile isBlank, List.all_eq_true.1 List.all_takeWhile, List.takeWhile_append_dropWhile⟩

theorem exists_trimEnd (cs : List Char) :
    ∃ after, AllBlank after ∧ trimEnd cs ++ after = cs := by
  obtain ⟨blanks, hblanks, h⟩ := exists_trimStart cs.reverse
  refine ⟨blanks.reverse, fun c hc => hblanks c (List.mem_reverse.1 hc), ?_⟩
  simpa [trimEnd, trimStart] using congrArg List.reverse h

/-- Every text is its trimmed form between blanks. -/
theorem exists_trim (cs : List Char) :
    ∃ before after, AllBlank before ∧ AllBlank after ∧ before ++ trim cs ++ after = cs := by
  obtain ⟨before, hbefore, hstart⟩ := exists_trimStart cs
  obtain ⟨after, hafter, hend⟩ := exists_trimEnd (trimStart cs)
  refine ⟨before, after, hbefore, hafter, ?_⟩
  rw [List.append_assoc, trim, hend]
  exact hstart

/-! ### Trimmed text -/

theorem not_isBlank_of_head?_trimStart {c : Char} {cs : List Char}
    (h : c ∈ (trimStart cs).head?) : isBlank c = false := by
  have hdropped := List.head?_dropWhile_not isBlank cs
  rw [← trimStart, Option.mem_def.1 h] at hdropped
  exact hdropped

theorem not_isBlank_of_getLast?_trimEnd {c : Char} {cs : List Char}
    (h : c ∈ (trimEnd cs).getLast?) : isBlank c = false := by
  rw [trimEnd, List.getLast?_reverse] at h
  exact not_isBlank_of_head?_trimStart h

theorem not_isBlank_of_head?_trim {c : Char} {cs : List Char} (h : c ∈ (trim cs).head?) :
    isBlank c = false := by
  obtain ⟨after, _, hend⟩ := exists_trimEnd (trimStart cs)
  have hfirst : c ∈ (trimStart cs).head? := by
    rw [← hend, List.head?_append, ← trim, Option.mem_def.1 h]
    rfl
  exact not_isBlank_of_head?_trimStart hfirst

/-- Trimming twice is trimming once. -/
@[simp]
theorem trim_trim (cs : List Char) : trim (trim cs) = trim cs :=
  trim_eq_self (fun _ => not_isBlank_of_head?_trim) fun _ => not_isBlank_of_getLast?_trimEnd

end Foundry.Text
