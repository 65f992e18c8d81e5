import Mathlib.Data.List.Forall2

/-!
# Related lists and options

Two lists may be related element by element, which is `List.Forall₂`. The lemmas here compose such
relations and split them, and look into them for the partner of an element. Values that may be
absent are related by `Option.Rel` if both are absent or neither is.

* `rel_cases`: what it is for such values to be related.
* `exists_related_of_length_le`: when the elements of a list are related to different ones of a list
  that is no longer, none of the latter is left out.
-/

namespace Foundry

variable {α β γ : Type*} {R : α → β → Prop} {xs : List α} {ys : List β}

theorem exists_of_forall₂ {x : α} (h : List.Forall₂ R xs ys) (hx : x ∈ xs) : ∃ y ∈ ys, R x y := by
  induction h with
  | nil => cases hx
  | cons hxy _ ih =>
    rcases List.mem_cons.1 hx with rfl | hx
    · exact ⟨_, List.mem_cons_self, hxy⟩
    · obtain ⟨y, hy, hR⟩ := ih hx
      exact ⟨y, List.mem_cons_of_mem _ hy, hR⟩

/-- A list of values that determine their partners has one list of partners. -/
theorem eq_of_forall₂ {zs : List β} (h : List.Forall₂ (fun x y => ∀ z, R x z → y = z) xs ys)
    (h' : List.Forall₂ R xs zs) : ys = zs := by
  induction h generalizing zs with
  | nil => rw [List.forall₂_nil_left_iff.1 h']
  | cons hxy _ ih =>
    obtain ⟨z, zs, hxz, hxs, rfl⟩ := List.forall₂_cons_left_iff.1 h'
    rw [hxy z hxz, ih hxs]

/-- If each item has a partner, the list has a list of partners. -/
theorem exists_forall₂ (h : ∀ x ∈ xs, ∃ y, R x y) :
    ∃ ys, List.Forall₂ R xs ys := by
  induction xs with
  | nil => exact ⟨[], List.Forall₂.nil⟩
  | cons x xs ih =>
    rw [List.forall_mem_cons] at h
    obtain ⟨⟨y, hy⟩, hxs⟩ := h
    obtain ⟨ys, hys⟩ := ih hxs
    exact ⟨y :: ys, List.Forall₂.cons hy hys⟩

/-- Partners through values in between have a list of values in between. -/
theorem exists_forall₂_between {P : α → γ → Prop} {Q : γ → β → Prop} (h : List.Forall₂ R xs ys)
    (hR : ∀ x y, R x y → ∃ z, P x z ∧ Q z y) :
    ∃ zs, List.Forall₂ P xs zs ∧ List.Forall₂ Q zs ys := by
  induction h with
  | nil => exact ⟨[], List.Forall₂.nil, List.Forall₂.nil⟩
  | cons hxy _ ih =>
    obtain ⟨z, hP, hQ⟩ := hR _ _ hxy
    obtain ⟨zs, hPs, hQs⟩ := ih
    exact ⟨z :: zs, List.Forall₂.cons hP hPs, List.Forall₂.cons hQ hQs⟩

/-- Partners of partners are partners, if that holds of the items at hand. -/
theorem forall₂_comp_of_mem {S : β → γ → Prop} {Q : α → γ → Prop} {zs : List γ}
    (hxy : List.Forall₂ R xs ys) (hyz : List.Forall₂ S ys zs)
    (comp : ∀ x ∈ xs, ∀ y ∈ ys, ∀ z, R x y → S y z → Q x z) : List.Forall₂ Q xs zs := by
  induction hxy generalizing zs with
  | nil =>
    rw [List.forall₂_nil_left_iff] at hyz
    rw [hyz]
    exact .nil
  | cons h _ ih =>
    rcases hyz with _ | ⟨h', hyz⟩
    refine .cons (comp _ List.mem_cons_self _ List.mem_cons_self _ h h') (ih hyz ?_)
    intro x hx y hy
    exact comp x (List.mem_cons_of_mem _ hx) y (List.mem_cons_of_mem _ hy)

theorem forall₂_imp_of_mem {S : α → β → Prop} (h : List.Forall₂ R xs ys)
    (imp : ∀ x ∈ xs, ∀ y ∈ ys, R x y → S x y) : List.Forall₂ S xs ys := by
  have hsame : List.Forall₂ (· = ·) ys ys := List.forall₂_same.2 fun _ _ => rfl
  refine forall₂_comp_of_mem h hsame ?_
  rintro x hx y hy _ hxy rfl
  exact imp x hx y hy hxy

/-! ### Values that may be absent -/

section Option

variable {R : α → α → Prop} {x y : Option α}

theorem rel_cases (h : Option.Rel R x y) :
    x = none ∧ y = none ∨ ∃ a b, x = some a ∧ y = some b ∧ R a b := by
  cases h with
  | none => exact Or.inl ⟨rfl, rfl⟩
  | some hab => exact Or.inr ⟨_, _, rfl, rfl, hab⟩

theorem isSome_eq_of_rel (h : Option.Rel R x y) : x.isSome = y.isSome := by
  cases h <;> rfl

theorem rel_refl (hR : ∀ a, R a a) (x : Option α) : Option.Rel R x x := by
  cases x with
  | none => exact .none
  | some a => exact .some (hR a)

/-- A value that stands in front hides the same on both sides. -/
theorem or_rel (hR : ∀ a, R a a) (w : Option α) (h : Option.Rel R x y) :
    Option.Rel R (w.or x) (w.or y) := by
  cases w with
  | none => exact h
  | some a => exact .some (hR a)

end Option

/-! ### Counting -/

/-- **Every element is met.** If each element of a list is related to one of a list that is no
longer, and no two of them to the same one, then each element of the second list is met. -/
theorem exists_related_of_length_le (hlen : ys.length ≤ xs.length)
    (hone : xs.Pairwise fun x x' => ∀ y, ¬(R x y ∧ R x' y))
    (hmeet : ∀ x ∈ xs, ∃ y ∈ ys, R x y) : ∀ y ∈ ys, ∃ x ∈ xs, R x y := by
  induction xs generalizing ys with
  | nil =>
    intro y hy
    rw [List.length_nil, Nat.le_zero, List.length_eq_zero_iff] at hlen
    rw [hlen] at hy
    exact absurd hy List.not_mem_nil
  | cons x xs ih =>
    rw [List.pairwise_cons] at hone
    rw [List.forall_mem_cons] at hmeet
    obtain ⟨⟨y, hy, hxy⟩, hmeet⟩ := hmeet
    obtain ⟨before, after, rfl⟩ := List.append_of_mem hy
    -- Nothing but `x` is related to `y`, so the others meet the list without it.
    have hrest : ∀ x' ∈ xs, ∃ y' ∈ before ++ after, R x' y' := by
      intro x' hx'
      obtain ⟨y', hy', hxy'⟩ := hmeet x' hx'
      simp only [List.mem_append, List.mem_cons] at hy' ⊢
      rcases hy' with h | rfl | h
      · exact ⟨y', Or.inl h, hxy'⟩
      · exact absurd ⟨hxy, hxy'⟩ (hone.1 x' hx' y')
      · exact ⟨y', Or.inr h, hxy'⟩
    have hlen' : (before ++ after).length ≤ xs.length := by
      simp only [List.length_append, List.length_cons] at hlen ⊢
      omega
    intro z hz
    have hz' : z = y ∨ z ∈ before ++ after := by
      simp only [List.mem_append, List.mem_cons] at hz ⊢
      tauto
    rcases hz' with rfl | hz'
    · exact ⟨x, List.mem_cons_self, hxy⟩
    · obtain ⟨x', hx', h⟩ := ih hlen' hone.2 hrest z hz'
      exact ⟨x', List.mem_cons_of_mem _ hx', h⟩

end Foundry
