/-!
# Fixed text at the ends of a text

`dropStart? p cs` is what follows `p` at the start of `cs`, and `dropEnd? p cs` what precedes it at
the end; neither exists where `p` does not stand there.

* `dropStart?_eq_some_iff`, `dropEnd?_eq_some_iff`: both undo an append.
-/

namespace Foundry.Text

/-- What follows `p` at the start of a text. -/
def dropStart? : List Char → List Char → Option (List Char)
  | [], cs => some cs
  | p :: ps, c :: cs => if p = c then dropStart? ps cs else none
  | _ :: _, [] => none

/-- What precedes `p` at the end of a text. -/
def dropEnd? (p cs : List Char) : Option (List Char) :=
  (dropStart? p.reverse cs.reverse).map List.reverse

/-- What follows the character `c` at the start of a text, or else the text itself. -/
def dropOptional (c : Char) (cs : List Char) : List Char :=
  (dropStart? [c] cs).getD cs

theorem dropStart?_eq_some_iff {p cs r : List Char} : dropStart? p cs = some r ↔ cs = p ++ r := by
  induction p generalizing cs with
  | nil => simp [dropStart?]
  | cons p ps ih =>
    cases cs with
    | nil => simp [dropStart?]
    | cons c cs =>
      by_cases h : p = c
      · simp [dropStart?, h, ih]
      · simp [dropStart?, h, Ne.symm h]

theorem dropEnd?_eq_some_iff {p cs r : List Char} : dropEnd? p cs = some r ↔ cs = r ++ p := by
  simp only [dropEnd?, Option.map_eq_some_iff, dropStart?_eq_some_iff]
  constructor
  · rintro ⟨q, h, rfl⟩
    simpa using congrArg List.reverse h
  · rintro rfl
    exact ⟨r.reverse, by simp, by simp⟩

end Foundry.Text
