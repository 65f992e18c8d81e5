import Foundry.Parameter.Scalar
import Foundry.Proofs.Decimal.LongestNumeral

/-!
# The number in front of a unit

A string value of type `double`, `float` or `time` is a number with a unit behind it. The two are
told apart by the text alone: the number is the longest numeral that the trimmed text starts with,
and everything behind it is the unit, so `2e` is two with the unit `e` and `2e+3` has no unit. Every
character of a numeral takes one byte, so the number of its characters is the byte at which the text
is cut, whatever stands behind it.

* `utf8ByteSize_of_isNumeral`: a numeral has as many bytes as characters.
* `namesUnit_iff`: the unit of a time, by its name.
* `leadingNumber?_eq_some_iff`, `leadingNumber?_eq_none_iff`: the number, and when there is none.
* `split_before_unit`: where the text is cut, and how each part is read.
-/

namespace Foundry.Parameter

open Foundry.Decimal Foundry.Text Foundry.Yaml

variable {cs p rest : List Char} {s : String} {n : Node} {u : TimeUnit} {x : Binary64}

/-! ### Bytes -/

theorem utf8Size_of_isDigit {c : Char} (h : c.isDigit = true) : c.utf8Size = 1 := by
  rw [Char.isDigit, Bool.and_eq_true, decide_eq_true_eq, decide_eq_true_eq] at h
  rw [Char.utf8Size_eq_one_iff]
  exact UInt32.le_trans h.2 (by decide)

theorem utf8Size_of_mem_numeral {c : Char} (hp : IsNumeral p) (hc : c ∈ p) : c.utf8Size = 1 := by
  obtain ⟨m, hm, rfl⟩ := isNumeral_iff.1 hp
  rcases Numeral.mem_text hm hc with hdigit | hsign
  · exact utf8Size_of_isDigit hdigit
  · have hall : ['-', '+', '.', 'e', 'E'].all (fun d => d.utf8Size == 1) = true := by decide
    exact eq_of_beq (List.all_eq_true.1 hall c hsign)

theorem utf8ByteSize_ofList_eq_length (h : ∀ c ∈ cs, c.utf8Size = 1) :
    (String.ofList cs).utf8ByteSize = cs.length := by
  induction cs with
  | nil => rfl
  | cons c cs ih =>
    have hfirst : c.utf8Size = 1 := h c List.mem_cons_self
    have hrest := ih fun d hd => h d (List.mem_cons_of_mem c hd)
    rw [String.ofList_cons, String.utf8ByteSize_append, String.utf8ByteSize_singleton, hfirst,
      hrest, List.length_cons, Nat.add_comm]

/-- **One byte for each character** of a numeral. -/
theorem utf8ByteSize_of_isNumeral (h : IsNumeral p) :
    (String.ofList p).utf8ByteSize = p.length :=
  utf8ByteSize_ofList_eq_length fun _ => utf8Size_of_mem_numeral h

/-! ### Units -/

/-- The unit that a suffix names: blanks around it and its case do not count, and a suffix that is
no name stands for picoseconds. -/
inductive NamesUnit (suffix : List Char) : TimeUnit → Prop
  | named {u : TimeUnit} (h : (trim suffix).map Char.toLower = u.name.toList) : NamesUnit suffix u
  | other (h : ∀ u : TimeUnit, (trim suffix).map Char.toLower ≠ u.name.toList) :
    NamesUnit suffix .ps

/-- A suffix gives a unit exactly if it is the name of the unit, up to blanks around it and case. -/
theorem TimeUnit.ofSuffix?_eq_some_iff :
    TimeUnit.ofSuffix? cs = some u ↔ (trim cs).map Char.toLower = u.name.toList := by
  constructor
  · intro h
    have hname := List.find?_some h
    exact (eq_of_beq hname).symm
  · intro h
    have hfound : TimeUnit.all.find? (fun v => v.name.toList == u.name.toList) = some u := by
      cases u <;> decide
    unfold TimeUnit.ofSuffix?
    rw [h]
    exact hfound

theorem TimeUnit.ofSuffix?_eq_none_iff :
    TimeUnit.ofSuffix? cs = none ↔ ∀ u : TimeUnit, (trim cs).map Char.toLower ≠ u.name.toList := by
  simp only [Option.eq_none_iff_forall_ne_some, ne_eq, TimeUnit.ofSuffix?_eq_some_iff]

/-- **The unit of a suffix**, and there is only one. -/
theorem namesUnit_iff : NamesUnit cs u ↔ (TimeUnit.ofSuffix? cs).getD .ps = u := by
  constructor
  · rintro (h | h)
    · rw [TimeUnit.ofSuffix?_eq_some_iff.2 h, Option.getD_some]
    · rw [TimeUnit.ofSuffix?_eq_none_iff.2 h, Option.getD_none]
  · rintro rfl
    cases h : TimeUnit.ofSuffix? cs with
    | none => exact .other (TimeUnit.ofSuffix?_eq_none_iff.1 h)
    | some u => exact .named (TimeUnit.ofSuffix?_eq_some_iff.1 h)

/-! ### Numbers -/

/-- A leading number is the value of the longest numeral that the text starts with behind its
blanks. -/
theorem leadingNumber?_eq_some_iff : leadingNumber? cs = some (x, rest) ↔
    ∃ p m, StartsWithLongest (trim cs) p rest ∧ Numeral.ofText? p = some m ∧ m.value = x := by
  rw [leadingNumber?, Option.map_eq_some_iff]
  constructor
  · rintro ⟨⟨m, r⟩, hscan, heq⟩
    obtain ⟨rfl, rfl⟩ := Prod.mk.inj heq
    obtain ⟨p, hp, hm⟩ := Numeral.scan_eq_some_iff.1 hscan
    exact ⟨p, m, hp, hm, rfl⟩
  · rintro ⟨p, m, hp, hm, rfl⟩
    exact ⟨(m, rest), Numeral.scan_eq_some_iff.2 ⟨p, hp, hm⟩, rfl⟩

/-- There is no leading number exactly if the text starts with no numeral. -/
theorem leadingNumber?_eq_none_iff :
    leadingNumber? cs = none ↔ ∀ p, p <+: trim cs → ¬ IsNumeral p := by
  rw [leadingNumber?, Option.map_eq_none_iff, Numeral.scan_eq_none_iff]

theorem exists_ofText?_of_isNumeral (h : IsNumeral p) : ∃ m, Numeral.ofText? p = some m := by
  obtain ⟨m, hm, rfl⟩ := isNumeral_iff.1 h
  exact ⟨m, Numeral.ofText?_text hm⟩

/-- Behind the numeral, the text is cut at the boundary of a character. -/
theorem isValid_split (h : StartsWithLongest (trim s.toList) p rest) :
    trimmed s = String.ofList p ++ String.ofList rest ∧
      String.Pos.Raw.IsValid (trimmed s) ⟨p.length⟩ := by
  have happend : trimmed s = String.ofList p ++ String.ofList rest := by
    rw [trimmed, ← h.append, String.ofList_append]
  have hend : (⟨p.length⟩ : String.Pos.Raw) = (String.ofList p).rawEndPos := by
    rw [String.rawEndPos, utf8ByteSize_of_isNumeral h.isNumeral]
  exact ⟨happend, String.Pos.Raw.isValid_iff_exists_append.2 ⟨_, _, happend, hend⟩⟩

/-! ### Values -/

/-- A floating-point number is its leading number times the size that the letter behind it stands
for. -/
theorem readFloat_of_leadingNumber? (hn : n.bare = .str s)
    (h : leadingNumber? s.toList = some (x, rest)) (target : String) :
    readFloat target n =
      if (x.scale (10 * sizePower rest.head?)).isFinite = true then
        .ok (x.scale (10 * sizePower rest.head?))
      else .error (.invalid n.describe target .notFinite) := by
  simp only [readFloat, hn, h]
  rfl

theorem readFloat_of_no_number (hn : n.bare = .str s) (h : leadingNumber? s.toList = none)
    (target : String) : readFloat target n = .error (.invalid s target .noLeadingNumber) := by
  simp only [readFloat, hn, h]
  rfl

/-- A time is its leading number, in the unit that the rest of the text names. -/
theorem readTime_of_leadingNumber? (hn : n.bare = .str s)
    (h : leadingNumber? s.toList = some (x, rest)) :
    readTime n = .ok (x, (TimeUnit.ofSuffix? rest).getD .ps) := by
  simp only [readTime, hn, h]

theorem readTime_of_no_number (hn : n.bare = .str s) (h : leadingNumber? s.toList = none) :
    readTime n = .error (.invalid s "time" .noLeadingNumber) := by
  simp only [readTime, hn, h]

/-- **Where a number ends.** There is no number exactly if no prefix of the trimmed text is a
numeral; otherwise the text is cut behind the longest one, at the end of a character, and its number
is read. What is left is the unit: its first character for the floating-point types, all of it for
times. -/
theorem split_before_unit (s : String) :
    (leadingNumber? s.toList = none ↔ ∀ p, p <+: trim s.toList → ¬ IsNumeral p) ∧
    (∀ x rest, leadingNumber? s.toList = some (x, rest) ↔
      ∃ p m, StartsWithLongest (trim s.toList) p rest ∧ Numeral.ofText? p = some m ∧
        m.value = x) ∧
    (∀ p rest, StartsWithLongest (trim s.toList) p rest →
      (∃ m, Numeral.ofText? p = some m) ∧ (String.ofList p).utf8ByteSize = p.length ∧
        trimmed s = String.ofList p ++ String.ofList rest ∧
        String.Pos.Raw.IsValid (trimmed s) ⟨p.length⟩) ∧
    ∀ n : Node, n.bare = .str s →
      (leadingNumber? s.toList = none →
        (∀ target, readFloat target n = .error (.invalid s target .noLeadingNumber)) ∧
        readTime n = .error (.invalid s "time" .noLeadingNumber)) ∧
      ∀ x rest, leadingNumber? s.toList = some (x, rest) →
        (∀ target, readFloat target n =
          if (x.scale (10 * sizePower rest.head?)).isFinite = true then
            .ok (x.scale (10 * sizePower rest.head?))
          else .error (.invalid s target .notFinite)) ∧
        ∀ y u, readTime n = .ok (y, u) ↔ y = x ∧ NamesUnit rest u := by
  refine ⟨leadingNumber?_eq_none_iff, fun x rest => leadingNumber?_eq_some_iff, ?_, ?_⟩
  · intro p rest h
    exact ⟨exists_ofText?_of_isNumeral h.isNumeral, utf8ByteSize_of_isNumeral h.isNumeral,
      isValid_split h⟩
  · intro n hn
    refine ⟨fun h => ⟨readFloat_of_no_number hn h, readTime_of_no_number hn h⟩, ?_⟩
    intro x rest h
    constructor
    · intro target
      have hdescribe : n.describe = s := by
        rw [Node.describe, hn]
        rfl
      rw [← hdescribe]
      exact readFloat_of_leadingNumber? hn h target
    · intro y u
      rw [readTime_of_leadingNumber? hn h, namesUnit_iff, Except.ok.injEq, Prod.mk.injEq,
        eq_comm (a := x)]

theorem split_before_unit_nanoseconds :
    leadingNumber? "10 NS".toList = some (.ofInt 10, " NS".toList) ∧
      readFloat "double" (.str "10 NS") = .ok (.ofInt 10) ∧
      readTime (.str "10 NS") = .ok (.ofInt 10, .ns) := by
  obtain ⟨-, -, -, hread⟩ := split_before_unit "10 NS"
  have h : leadingNumber? "10 NS".toList = some (.ofInt 10, " NS".toList) := by decide +kernel
  obtain ⟨hfloat, htime⟩ := (hread (.str "10 NS") rfl).2 _ _ h
  refine ⟨h, ?_, ?_⟩
  · -- The first character behind the number is a blank, so nothing is scaled.
    rw [hfloat "double", if_pos (by decide +kernel), Except.ok.injEq]
    decide +kernel
  · exact (htime _ _).2 ⟨rfl, .named (by decide)⟩

end Foundry.Parameter
