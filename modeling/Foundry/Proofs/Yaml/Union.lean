import Foundry.Proofs.Yaml.Paths

/-!
# Merged mappings, written out

A merge of two mappings is the base with each value merged into, and behind it the entries of the
overlay whose keys the base does not have. Where the base has plain values under plain names, the
merge fills the overlay up: it has all entries of the overlay, and those of the base that the
overlay lacks.

* `mergeEntries_eq_append`: the merge as a list of entries.
* `besides_modify`: what stands besides some names is not touched by a change at one of them.
* `mem_mergeEntries_iff`: the entries of a mapping that is filled up.
-/

namespace Foundry.Yaml

namespace Entries

variable {es fs : Entries} {j k v : Node} {name : String} {names : List String}

/-! ### Finding entries -/

theorem keys_append (es fs : Entries) : keys (es ++ fs) = es.keys ++ fs.keys :=
  List.map_append

theorem keys_map_value (g : Node × Node → Node) (es : Entries) :
    keys (es.map fun e => (e.1, g e)) = es.keys := by
  rw [keys, List.map_map]
  rfl

/-- An entry is found under its key, where no key is repeated. -/
theorem find?_of_mem (hes : (Node.map es).WellKeyed) (h : (k, v) ∈ es) : es.find? k = some v := by
  induction es with
  | nil => exact absurd h List.not_mem_nil
  | cons e es ih =>
    obtain ⟨l, w⟩ := e
    rw [find?_cons]
    rcases List.mem_cons.1 h with heq | h
    · obtain ⟨rfl, rfl⟩ := Prod.mk.inj heq
      rw [if_pos (Node.same_refl k)]
    · have hdistinct := hes.distinct_of_map
      rw [keysDistinct_iff, List.pairwise_cons] at hdistinct
      have hlk : l.same k = false := hdistinct.1 (k, v) h
      have hkl : k.same l = false := by
        rw [Node.same_comm (hes.key_of_mem (List.mem_cons_of_mem _ h))
          (hes.key_of_mem List.mem_cons_self)]
        exact hlk
      rw [hkl]
      exact ih hes.tail h

/-- An entry with a plain name is what is found under this name. -/
theorem mem_iff_field? (hes : (Node.map es).WellKeyed) :
    (.str name, v) ∈ es ↔ es.field? name = some v := by
  constructor
  · intro h
    exact find?_of_mem hes h
  · intro h
    obtain ⟨k, hk, hsame⟩ := mem_of_find?_eq_some h
    rw [Node.same_str_iff.1 hsame] at hk
    exact hk

/-- What is found when values are changed by their keys, alike for keys that are the same. -/
theorem find?_map_value {g : Node → Node → Node} (hg : ∀ l, j.same l = true → g j = g l)
    (es : Entries) : find? j (es.map fun e => (e.1, g e.1 e.2)) = (es.find? j).map (g j) := by
  induction es with
  | nil => rfl
  | cons e es ih =>
    obtain ⟨l, v⟩ := e
    rw [List.map_cons, find?_cons, find?_cons, ih]
    split
    · rename_i hjl
      rw [Option.map_some, hg l hjl]
    · rfl

/-- Whether a key is there can be seen from the keys alone. -/
theorem any_same_keys (k : Node) (es : Entries) : es.keys.any k.same = (es.find? k).isSome := by
  rw [keys, List.any_map, find?, Option.isSome_map, List.isSome_find?]
  rfl

/-! ### Entries besides some names -/

/-- The entries of a mapping whose keys are none of some names, in order. -/
def besides (names : List String) (es : Entries) : Entries :=
  es.filter fun e => !(names.map Node.str).any e.1.same

/-- A change to the value at one of the names is not seen besides them. -/
theorem besides_modify (h : name ∈ names) (g : Node → Node) (es : Entries) :
    (es.modify (.str name) g).besides names = es.besides names := by
  unfold besides
  induction es with
  | nil => rfl
  | cons e es ih =>
    obtain ⟨l, v⟩ := e
    rw [modify]
    split
    · rename_i hl
      obtain rfl := Node.same_str_iff.1 hl
      have hout : (names.map Node.str).any (Node.str name).same = true :=
        List.any_eq_true.2 ⟨.str name, List.mem_map_of_mem h, Node.same_refl _⟩
      rw [List.filter_cons_of_neg (by simp [hout]), List.filter_cons_of_neg (by simp [hout])]
    · rw [List.filter_cons, List.filter_cons, ih]

end Entries

namespace Node

open Entries

variable {es fs : Entries} {k : Node}

/-! ### Merges -/

/-- **A merge, written out.** -/
theorem mergeEntries_eq_append (hes : (map es).WellKeyed) (hfs : (map fs).WellKeyed) :
    mergeEntries es fs =
      (es.map fun e => (e.1, (Entries.find? e.1 fs).elim e.2 e.2.merge)) ++
        fs.filter fun e => !(Entries.keys es).any e.1.same := by
  apply mergeEntries_eq hes hfs
  · rw [keys_mergeEntries_eq_append hfs, keys_append, keys_map_value,
      keys_filter fun k => !(Entries.keys es).any k.same]
  · intro k hk
    have hbase : Entries.find? k
        (es.map fun e => (e.1, (Entries.find? e.1 fs).elim e.2 e.2.merge)) =
        (Entries.find? k es).map fun v => (Entries.find? k fs).elim v v.merge := by
      apply find?_map_value (g := fun l v => (Entries.find? l fs).elim v v.merge)
      intro l hl
      rw [find?_congr hk hl]
    have hover : Entries.find? k (fs.filter fun e => !(Entries.keys es).any e.1.same) =
        if !(Entries.keys es).any k.same then Entries.find? k fs else none := by
      apply find?_filter (P := fun k => !(Entries.keys es).any k.same)
      intro l hl
      have hsame : k.same = l.same := funext fun n => same_congr hk hl n
      rw [hsame]
    rw [find?_append, hbase, hover, any_same_keys]
    cases Entries.find? k es with
    | none => rw [none_laidOver]; rfl
    | some v => cases Entries.find? k fs <;> rfl

/-- **Filling up.** Laid over plain values under plain names, a mapping keeps all of its entries and
gets those whose names it lacks. -/
theorem mem_mergeEntries_iff (hes : (map es).WellKeyed) (hfs : (map fs).WellKeyed)
    (hplain : ∀ e ∈ es, (∃ name, e.1 = .str name) ∧ e.2.isMap = false) {e : Node × Node} :
    e ∈ mergeEntries es fs ↔ e ∈ fs ∨ e ∈ es ∧ Entries.find? e.1 fs = none := by
  rw [mergeEntries_eq_append hes hfs, List.mem_append, List.mem_map, List.mem_filter,
    Bool.not_eq_eq_eq_not, Bool.not_true, any_same_keys, Option.isSome_eq_false_iff,
    Option.isNone_iff_eq_none]
  -- A plain value does not take part in a merge.
  have hvalue : ∀ d ∈ es, (Entries.find? d.1 fs).elim d.2 d.2.merge =
      (Entries.find? d.1 fs).getD d.2 := by
    intro d hd
    cases Entries.find? d.1 fs with
    | none => rfl
    | some v => exact merge_eq_overlay (Or.inl (hplain d hd).2)
  constructor
  · rintro (⟨d, hd, rfl⟩ | ⟨he, _⟩)
    · obtain ⟨⟨name, hname⟩, _⟩ := hplain d hd
      rw [hvalue d hd]
      cases hfind : Entries.find? d.1 fs with
      | none => exact Or.inr ⟨hd, rfl⟩
      | some v =>
        rw [hname] at hfind ⊢
        exact Or.inl ((mem_iff_field? hfs).2 hfind)
    · exact Or.inl he
  · rintro (he | ⟨he, hnone⟩)
    · cases hfind : Entries.find? e.1 es with
      | none => exact Or.inr ⟨he, rfl⟩
      | some v =>
        obtain ⟨l, hl, hsame⟩ := mem_of_find?_eq_some hfind
        obtain ⟨⟨name, hname⟩, _⟩ := hplain (l, v) hl
        obtain rfl : l = .str name := hname
        have hkey : e.1 = .str name := same_right_str_iff.1 hsame
        have hover : Entries.find? (.str name) fs = some e.2 := by
          rw [← hkey]
          exact find?_of_mem hfs he
        refine Or.inl ⟨(.str name, v), hl, ?_⟩
        rw [hvalue _ hl, hover, Option.getD_some, ← hkey]
    · refine Or.inl ⟨e, he, ?_⟩
      rw [hvalue e he, hnone, Option.getD_none]

end Node

end Foundry.Yaml
