import Foundry.Proofs.Yaml.Shape

/-!
# Values that are laid on again

A value laid over a result that it was laid over just before changes nothing: merging the two of it
first makes one of it (`merge_self`), and nothing is replaced between a value and itself, so the
grouping does not matter (`mergeAssoc_iff_regroupable`). In a stack, a value right behind itself may
be left out, and the first value is the start of the stack.

* `merge_again`: the law for two values.
* `merge_repeated`: all the laws of repetition, for stacks too.
-/

namespace Foundry.Yaml.Node

variable {a b n : Node} {ns before after : List Node}

/-- Nothing of `a` is replaced by `b` between two of `b`. -/
theorem regroupable_of_repeated (a b : Node) : Regroupable a b b := by
  rintro p - es m gs - hm hmap hgs
  rw [hm, Option.some.injEq] at hgs
  rw [hgs, isMap_map] at hmap
  cases hmap

/-- **Above once is above for good.** -/
theorem merge_again (ha : a.WellKeyed) (hb : b.WellKeyed) : (a.merge b).merge b = a.merge b := by
  have hassoc : MergeAssoc a b b :=
    (mergeAssoc_iff_regroupable ha hb hb).2 (regroupable_of_repeated a b)
  rw [hassoc, merge_self hb]

theorem wellKeyed_stacked (h : ∀ n ∈ ns, n.WellKeyed) : (stacked ns).WellKeyed := by
  induction ns using List.reverseRecOn with
  | nil => exact wellKeyed_empty
  | append_singleton ns n ih =>
    rw [List.forall_mem_append, List.forall_mem_singleton] at h
    rw [stacked_append_singleton]
    exact (ih h.1).merge h.2

/-- A value right behind itself may be left out. -/
theorem stacked_repeated (hbefore : ∀ n ∈ before, n.WellKeyed) (hn : n.WellKeyed) :
    stacked (before ++ n :: n :: after) = stacked (before ++ n :: after) := by
  have hagain := merge_again (wellKeyed_stacked hbefore) hn
  rw [stacked] at hagain
  rw [stacked, stacked, List.foldl_append, List.foldl_append, List.foldl_cons, List.foldl_cons,
    List.foldl_cons, hagain]

theorem stacked_cons (hn : n.WellKeyed) : stacked (n :: ns) = ns.foldl merge n := by
  rw [stacked, List.foldl_cons, empty_merge hn]

/-- **Repetition changes nothing.** Values that repeat no key, with the order of keys counted at
every depth: laying one on again right after itself, over itself or over nothing makes no
difference. In a stack it may stand twice, one right behind the other, or be where the stack
starts. -/
theorem merge_repeated (ha : a.WellKeyed) (hb : b.WellKeyed) :
    (a.merge b).merge b = a.merge b ∧ a.merge a = a ∧ (map []).merge a = a ∧
    ∀ before after : List Node, (∀ n ∈ before, n.WellKeyed) →
      stacked (before ++ a :: a :: after) = stacked (before ++ a :: after) ∧
      stacked (a :: after) = after.foldl merge a :=
  ⟨merge_again ha hb, merge_self ha, empty_merge ha,
    fun _ _ hbefore => ⟨stacked_repeated hbefore ha, stacked_cons ha⟩⟩

/-- A mapping with a number first and a mapping behind it. -/
def numberFirst : Node :=
  map [(str "x", int 1), (str "y", map [(str "p", int 2)])]

/-- Keys in another order, and a number for the mapping. -/
def numbersOnly : Node :=
  map [(str "z", int 3), (str "y", int 4), (str "x", int 5)]

/-- Laid on twice, it still leaves the keys where the base has them. -/
theorem merge_repeated_numbersOnly :
    numberFirst.WellKeyed ∧ numbersOnly.WellKeyed ∧
      (numberFirst.merge numbersOnly).merge numbersOnly =
        map [(str "x", int 5), (str "y", int 4), (str "z", int 3)] := by
  have hbase : numberFirst.WellKeyed := by simp [numberFirst, Entries.keysDistinct, same]
  have hover : numbersOnly.WellKeyed := by simp [numbersOnly, Entries.keysDistinct, same]
  refine ⟨hbase, hover, (merge_repeated hbase hover).1.trans ?_⟩
  simp [numberFirst, numbersOnly, mergeEntries, Entries.update, same, merge_eq_overlay, isMap]

end Foundry.Yaml.Node
