import Foundry.Proofs.Parameter.Tags

/-!
# Lists in braces

The literal of a vector is its elements' literals between braces, with a comma and a blank between
two of them, or a blank alone if there are none. If the literals of the elements can be told apart
wherever a comma, a closing brace or nothing follows them, so can these of vectors (`Separable`).
This goes on from one level of vectors to the next, whatever the lengths are.

* `Separable.of_plain`: different texts without blanks, commas and closing braces can be told apart.
* `Separable.vector`: one level more.
* `Separable.injective`: what a literal says of its value.
-/

namespace Foundry.Parameter

variable {α : Type} {text : α → String} {r s : List Char}

/-- The literal of a vector, from those of its items. -/
def vectorText : List String → String
  | [] => "\x7b \x7d"
  | elements => braced elements

/-- What follows starts with a comma or a closing brace, or there is nothing. -/
def Closes (r : List Char) : Prop :=
  ∀ c ∈ r.head?, c = ',' ∨ c = '\x7d'

/-- Values with texts that do not start with a blank and can be told apart in front of whatever
closes them. -/
structure Separable (text : α → String) : Prop where
  starts : ∀ a, ∃ c cs, (text a).toList = c :: cs ∧ c ≠ ' '
  splits : ∀ {a b : α} {r s : List Char}, Closes r → Closes s →
    (text a).toList ++ r = (text b).toList ++ s → a = b ∧ r = s

/-- Separable texts belong to one value each: nothing follows either of them. -/
theorem Separable.injective (h : Separable text) : Function.Injective text := by
  intro a b hab
  have hnil : Closes [] := nofun
  have hsame : (text a).toList ++ [] = (text b).toList ++ [] := by rw [hab]
  exact (h.splits hnil hnil hsame).1

/-! ### Texts of scalars -/

/-- A character that is no part of the punctuation of vectors. -/
def Plain (c : Char) : Prop :=
  c ≠ ' ' ∧ c ≠ ',' ∧ c ≠ '\x7d'

instance (c : Char) : Decidable (Plain c) :=
  inferInstanceAs (Decidable (_ ∧ _))

theorem takeWhile_of_closes (hr : Closes r) : r.takeWhile (fun c => decide (Plain c)) = [] := by
  cases r with
  | nil => rfl
  | cons c r =>
    have hc : ¬ Plain c := by
      rcases hr c rfl with rfl | rfl <;> decide
    exact List.takeWhile_cons_of_neg (by simpa using hc)

theorem takeWhile_append_closes {cs : List Char} (hcs : ∀ c ∈ cs, Plain c) (hr : Closes r) :
    (cs ++ r).takeWhile (fun c => decide (Plain c)) = cs := by
  rw [List.takeWhile_append_of_pos, takeWhile_of_closes hr, List.append_nil]
  intro c hc
  exact decide_eq_true (hcs c hc)

/-- **Plain texts can be told apart.** -/
theorem Separable.of_plain (hne : ∀ a, (text a).toList ≠ [])
    (hplain : ∀ a, ∀ c ∈ (text a).toList, Plain c) (hinj : Function.Injective text) :
    Separable text where
  starts a := by
    obtain ⟨c, cs, hcs⟩ := List.exists_cons_of_ne_nil (hne a)
    have hc : Plain c := hplain a c (by rw [hcs]; exact List.mem_cons_self)
    exact ⟨c, cs, hcs, hc.1⟩
  splits := by
    intro a b r s hr hs h
    -- A text ends where the first character stands that is not plain.
    have htext : (text a).toList = (text b).toList := by
      rw [← takeWhile_append_closes (hplain a) hr, h, takeWhile_append_closes (hplain b) hs]
    rw [htext, List.append_cancel_left_eq] at h
    exact ⟨hinj (String.toList_inj.1 htext), h⟩

/-! ### Texts of vectors -/

/-- What follows the first item of a vector. -/
def behind (text : α → String) : List α → List Char
  | [] => ['\x7d']
  | a :: as => ',' :: ' ' :: ((text a).toList ++ behind text as)

/-- The text of a vector with items: a brace, the first item, and what follows it. -/
theorem toList_vectorText_cons (text : α → String) (a : α) (as : List α) :
    (vectorText ((a :: as).map text)).toList =
      '\x7b' :: ((text a).toList ++ behind text as) := by
  have hitems : ∀ a, ", ".toList.intercalate (((a :: as).map text).map String.toList) ++ ['\x7d'] =
      (text a).toList ++ behind text as := by
    induction as with
    | nil => intro a; simp [behind]
    | cons b as ih =>
      intro a
      simp only [List.map_cons, List.intercalate_cons_cons, List.append_assoc, behind] at ih ⊢
      rw [ih b]
      rfl
  show (braced ((a :: as).map text)).toList = _
  rw [braced, String.toList_append, String.toList_append, String.toList_intercalate,
    List.append_assoc]
  exact congrArg ('\x7b' :: ·) (hitems a)

theorem closes_behind (text : α → String) (as : List α) (r : List Char) :
    Closes (behind text as ++ r) := by
  cases as with
  | nil => rintro c ⟨⟩; exact Or.inr rfl
  | cons a as => rintro c ⟨⟩; exact Or.inl rfl

/-- **Items, one after another.** What follows the first item gives the other items, and where the
vector ends. -/
theorem Separable.splits_behind (h : Separable text) {as bs : List α}
    (hsame : behind text as ++ r = behind text bs ++ s) : as = bs ∧ r = s := by
  induction as generalizing bs with
  | nil =>
    cases bs with
    | nil => exact ⟨rfl, (List.cons.inj hsame).2⟩
    | cons b bs => exact absurd (List.cons.inj hsame).1 (by decide)
  | cons a as ih =>
    cases bs with
    | nil => exact absurd (List.cons.inj hsame).1 (by decide)
    | cons b bs =>
      -- What follows an item closes it, so the items in front are the same, and so is the rest.
      simp only [behind, List.cons_append, List.append_assoc, List.cons.injEq, true_and] at hsame
      obtain ⟨rfl, hrest⟩ := h.splits (closes_behind text as r) (closes_behind text bs s) hsame
      obtain ⟨rfl, hrs⟩ := ih hrest
      exact ⟨rfl, hrs⟩

/-- No vector with items starts like the empty one. -/
theorem Separable.ne_empty (h : Separable text) (a : α) (as : List α) :
    (vectorText []).toList ++ r ≠ (vectorText ((a :: as).map text)).toList ++ s := by
  obtain ⟨c, cs, hcs, hc⟩ := h.starts a
  rw [toList_vectorText_cons, hcs]
  intro hsame
  have hsecond := (List.cons.inj hsame).2
  exact hc (List.cons.inj hsecond).1.symm

/-- **One level more.** -/
theorem Separable.vector (h : Separable text) :
    Separable fun as : List α => vectorText (as.map text) where
  starts as := by
    cases as with
    | nil => exact ⟨'\x7b', [' ', '\x7d'], String.toList_ofList, by decide⟩
    | cons a as => exact ⟨'\x7b', _, toList_vectorText_cons text a as, by decide⟩
  splits := by
    intro as bs r s hr hs hsame
    cases as with
    | nil =>
      cases bs with
      | nil => exact ⟨rfl, List.append_cancel_left hsame⟩
      | cons b bs => exact absurd hsame (h.ne_empty b bs)
    | cons a as =>
      cases bs with
      | nil => exact absurd hsame.symm (h.ne_empty a as)
      | cons b bs =>
        rw [toList_vectorText_cons, toList_vectorText_cons, List.cons_append, List.cons_append,
          List.append_assoc, List.append_assoc] at hsame
        obtain ⟨rfl, hrest⟩ := h.splits (closes_behind text as r) (closes_behind text bs s)
          (List.cons.inj hsame).2
        obtain ⟨rfl, hrs⟩ := h.splits_behind hrest
        exact ⟨rfl, hrs⟩

end Foundry.Parameter
