import Foundry.Proofs.Yaml.WellKeyed

/-!
# Equality of YAML values

`Node.same` takes mappings for one key in whatever order they stand. `Node.equal` decides equality
proper, the order of keys and the sign of a zero included, so that a statement about the document
of a given text can be checked by reading the text.

* `equal_iff`: the comparison decides equality.
-/

namespace Foundry.Yaml

namespace Node

mutual

/-- Whether two values are equal. -/
def equal : Node → Node → Bool
  | null, null => true
  | bool a, bool b => a == b
  | int i, int j => i == j
  | float x, float y => decide (x = y)
  | str s, str t => s == t
  | seq xs, seq ys => equalItems xs ys
  | map es, map fs => equalEntries es fs
  | tagged s x, tagged t y => s == t && equal x y
  | _, _ => false

/-- Sequences are equal item by item. -/
def equalItems : List Node → List Node → Bool
  | [], [] => true
  | x :: xs, y :: ys => equal x y && equalItems xs ys
  | _, _ => false

/-- Mappings are equal entry by entry. -/
def equalEntries : List (Node × Node) → List (Node × Node) → Bool
  | [], [] => true
  | (k, v) :: es, (l, w) :: fs => equal k l && equal v w && equalEntries es fs
  | _, _ => false

end

theorem equalItems_iff {xs ys : List Node}
    (h : ∀ x ∈ xs, ∀ y : Node, x.equal y = true ↔ x = y) :
    equalItems xs ys = true ↔ xs = ys := by
  induction xs generalizing ys with
  | nil => cases ys <;> simp [equalItems]
  | cons x xs ih =>
    rw [List.forall_mem_cons] at h
    cases ys with
    | nil => simp [equalItems]
    | cons y ys => rw [equalItems, Bool.and_eq_true, h.1, ih h.2, List.cons.injEq]

/-- Mappings are compared entry by entry, in order. -/
theorem equalEntries_iff {es fs : Entries}
    (hkeys : ∀ e ∈ es, ∀ k : Node, e.1.equal k = true ↔ e.1 = k)
    (hvalues : ∀ e ∈ es, ∀ v : Node, e.2.equal v = true ↔ e.2 = v) :
    equalEntries es fs = true ↔ es = fs := by
  induction es generalizing fs with
  | nil => cases fs <;> simp [equalEntries]
  | cons e es ih =>
    obtain ⟨k, v⟩ := e
    rw [List.forall_mem_cons] at hkeys hvalues
    cases fs with
    | nil => simp [equalEntries]
    | cons f fs =>
      obtain ⟨l, w⟩ := f
      rw [equalEntries, Bool.and_eq_true, Bool.and_eq_true, hkeys.1, hvalues.1,
        ih hkeys.2 hvalues.2, List.cons.injEq, Prod.mk.injEq]

/-- **Comparing decides equality.** -/
theorem equal_iff {m n : Node} : m.equal n = true ↔ m = n := by
  induction m using Node.induction generalizing n with
  | seq xs ih =>
    cases n with
    | seq ys => rw [equal, equalItems_iff fun x hx _ => ih x hx, seq.injEq]
    | _ => simp [equal]
  | map es ihk ihv =>
    cases n with
    | map fs =>
      rw [equal, equalEntries_iff (fun e he _ => ihk e he) fun e he _ => ihv e he, map.injEq]
    | _ => simp [equal]
  | tagged tag x ih =>
    cases n with
    | tagged tag' y => rw [equal, Bool.and_eq_true, beq_iff_eq, ih, tagged.injEq]
    | _ => simp [equal]
  | _ => cases n <;> simp [equal]

instance : DecidableEq Node := fun _ _ => decidable_of_iff _ equal_iff

end Node

end Foundry.Yaml
