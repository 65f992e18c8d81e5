import Foundry.Proofs.Yaml.WellKeyed
import Foundry.Yaml.Merge

/-!
# Looking up keys

What `find?` says of a mapping after an update, and how far it determines the mapping. Keys are
compared by `Node.same`, so every law asks for keys without repetitions inside them.

* `find?_congr`: keys that are the same find the same.
* `find?_filter`: what is found when keys are left out.
* `find?_update`, `keys_update`: an update changes one value and adds a key at most.
* `ext_of_keys_eq`: keys in order and the value at each of them make up a mapping.
* `wellKeyed_update`: an update does not repeat a key.
* `foldl_addKey_eq_append_filter`: which keys are added to others, and where.
* `field?_modify`, `find?_modify_of_not_same`, `wellKeyed_modify`: the same of a change to a value
  that is there.
-/

namespace Foundry.Yaml

/-! ### Mappings without repeated keys -/

namespace Node.WellKeyed

variable {es : Entries}

theorem distinct_of_map (h : (Node.map es).WellKeyed) : es.keysDistinct = true :=
  (wellKeyed_map_iff.1 h).1

theorem key_of_mem (h : (Node.map es).WellKeyed) {e : Node × Node} (he : e ∈ es) :
    e.1.WellKeyed :=
  ((wellKeyed_map_iff.1 h).2 e he).1

theorem value_of_mem (h : (Node.map es).WellKeyed) {e : Node × Node} (he : e ∈ es) :
    e.2.WellKeyed :=
  ((wellKeyed_map_iff.1 h).2 e he).2

theorem tail {e : Node × Node} (h : (Node.map (e :: es)).WellKeyed) : (Node.map es).WellKeyed := by
  have hd := h.distinct_of_map
  rw [Entries.keysDistinct_iff, List.pairwise_cons, ← Entries.keysDistinct_iff] at hd
  exact .map hd.2 (fun f hf => h.key_of_mem (List.mem_cons_of_mem _ hf))
    fun f hf => h.value_of_mem (List.mem_cons_of_mem _ hf)

end Node.WellKeyed

namespace Entries

open Node (WellKeyed)

variable {es fs : Entries} {j k : Node}

/-! ### Finding -/

/-- The keys of a mapping, in order. -/
def keys (es : Entries) : List Node := es.map (·.1)

theorem wellKeyed_of_mem_keys (hes : (Node.map es).WellKeyed) (h : k ∈ es.keys) : k.WellKeyed := by
  obtain ⟨e, he, rfl⟩ := List.mem_map.1 h
  exact hes.key_of_mem he

@[simp]
theorem find?_nil (j : Node) : find? j [] = none := rfl

theorem find?_cons (j k v : Node) (es : Entries) :
    find? j ((k, v) :: es) = if j.same k then some v else find? j es := by
  rw [find?, List.find?_cons]
  cases j.same k <;> rfl

theorem find?_append (j : Node) (es fs : Entries) :
    find? j (es ++ fs) = (es.find? j).or (fs.find? j) := by
  rw [find?, List.find?_append, Option.map_or]
  rfl

theorem find?_eq_none_iff : es.find? j = none ↔ ∀ e ∈ es, j.same e.1 = false := by
  rw [find?, Option.map_eq_none_iff, List.find?_eq_none]
  simp only [Bool.not_eq_true]

theorem mem_of_find?_eq_some {v : Node} (h : es.find? j = some v) :
    ∃ k, (k, v) ∈ es ∧ j.same k = true := by
  rw [find?, Option.map_eq_some_iff] at h
  obtain ⟨⟨k, w⟩, he, rfl⟩ := h
  have hsame := List.find?_some he
  exact ⟨k, List.mem_of_find?_eq_some he, hsame⟩

/-- Keys that are the same find the same value. -/
theorem find?_congr (hj : j.WellKeyed) (h : j.same k = true) (es : Entries) :
    es.find? j = es.find? k := by
  rw [find?, find?]
  congr 3
  funext e
  exact Node.same_congr hj h e.1

theorem wellKeyed_of_find? (hes : (Node.map es).WellKeyed) {v : Node} (h : es.find? j = some v) :
    v.WellKeyed := by
  obtain ⟨k, hk, _⟩ := mem_of_find?_eq_some h
  exact hes.value_of_mem hk

/-- **Keys and values make a mapping.** Mappings with the same keys in the same order are equal if
they have the same value at each key. -/
theorem ext_of_keys_eq (hes : (Node.map es).WellKeyed) (hkeys : es.keys = fs.keys)
    (h : ∀ k ∈ es.keys, es.find? k = fs.find? k) : es = fs := by
  induction es generalizing fs with
  | nil =>
    rw [keys, List.map_nil, eq_comm, keys, List.map_eq_nil_iff] at hkeys
    exact hkeys.symm
  | cons e es ih =>
    obtain ⟨k, v⟩ := e
    rcases fs with _ | ⟨⟨l, w⟩, fs⟩
    · exact absurd hkeys (by simp [keys])
    · obtain ⟨hkl, htail⟩ : k = l ∧ keys es = keys fs := by simpa [keys] using hkeys
      subst hkl
      have hvw : v = w := by
        have := h k (by simp [keys])
        simpa [find?_cons] using this
      have hrest : es = fs := by
        refine ih hes.tail htail fun j hj => ?_
        have hd := hes.distinct_of_map
        rw [keysDistinct_iff, List.pairwise_cons] at hd
        obtain ⟨e, he, rfl⟩ := List.mem_map.1 hj
        -- The first key does not come again, so the lookups go past it on both sides.
        have hne : e.1.same k = false := by
          rw [Node.same_comm (hes.key_of_mem (List.mem_cons_of_mem _ he))
            (hes.key_of_mem List.mem_cons_self)]
          exact hd.1 e he
        have hboth := h e.1 (List.mem_cons_of_mem _ hj)
        rw [find?_cons, find?_cons, hne] at hboth
        exact hboth
      rw [hvw, hrest]

/-! ### Leaving out -/

theorem keys_filter (P : Node → Bool) (es : Entries) :
    keys (es.filter fun e => P e.1) = es.keys.filter P := by
  rw [keys, keys, List.filter_map]
  rfl

/-- A key finds what it did, or nothing if entries of its kind are left out. -/
theorem find?_filter {P : Node → Bool} (hP : ∀ k, j.same k = true → P j = P k) (es : Entries) :
    find? j (es.filter fun e => P e.1) = if P j then es.find? j else none := by
  induction es with
  | nil => rw [List.filter_nil, find?_nil, ite_self]
  | cons e es ih =>
    obtain ⟨k, v⟩ := e
    rw [List.filter_cons]
    cases hjk : j.same k with
    | false =>
      have hcons : find? j ((k, v) :: es) = find? j es := by
        rw [find?_cons, hjk]
        rfl
      rw [hcons, ← ih]
      split
      · rw [find?_cons, hjk]
        rfl
      · rfl
    -- The first entry with the key: it decides, and the later ones are in or out with it.
    | true =>
      rw [hP k hjk] at ih ⊢
      split
      · rw [find?_cons, find?_cons, hjk]
        rfl
      · rename_i hout
        rw [ih, if_neg hout]

/-! ### Updating -/

/-- Keys with one more, if none of them is the same. -/
def addKey (ks : List Node) (k : Node) : List Node :=
  if ks.any k.same then ks else ks ++ [k]

/-- Adding keys brings in no others. -/
theorem mem_of_mem_foldl_addKey {k : Node} {seen ks : List Node}
    (h : k ∈ ks.foldl addKey seen) : k ∈ seen ∨ k ∈ ks := by
  induction ks generalizing seen with
  | nil => exact Or.inl h
  | cons l ks ih =>
    rw [List.foldl_cons] at h
    rw [List.mem_cons]
    rcases ih h with h | h
    · rw [addKey] at h
      split at h
      · exact Or.inl h
      · rw [List.mem_append, List.mem_singleton] at h
        tauto
    · exact Or.inr (Or.inr h)

variable {f : Option Node → Node}

/-- An update adds its key at the end, if it is not there. -/
@[simp]
theorem keys_update (k : Node) (f : Option Node → Node) (es : Entries) :
    (es.update k f).keys = addKey es.keys k := by
  induction es with
  | nil => rfl
  | cons e es ih =>
    obtain ⟨l, v⟩ := e
    cases hkl : k.same l with
    | true => simp [update, hkl, keys, addKey]
    | false =>
      have ih' : List.map (·.1) (update k f es) = addKey (List.map (·.1) es) k := ih
      simp only [update, hkl, Bool.false_eq_true, if_false, keys, List.map_cons, ih', addKey,
        List.any_cons, Bool.false_or]
      split <;> simp

/-- An update is seen at its key, and nowhere else. -/
theorem find?_update (hj : j.WellKeyed) (hk : k.WellKeyed) (f : Option Node → Node)
    (es : Entries) :
    (es.update k f).find? j = if j.same k then some (f (es.find? k)) else es.find? j := by
  induction es with
  | nil => rw [update, find?_cons, find?_nil, find?_nil]
  | cons e es ih =>
    obtain ⟨l, v⟩ := e
    rw [update, find?_cons k, find?_cons j]
    cases hkl : k.same l with
    | true =>
      simp only [if_true]
      rw [find?_cons, ← Node.same_congr_right hk hkl]
      split <;> rfl
    | false =>
      simp only [Bool.false_eq_true, if_false]
      rw [find?_cons, ih]
      cases hjl : j.same l with
      | true =>
        -- The key that is updated is not that of this entry, so it is not `j`.
        have hjk : j.same k = false := by
          rw [Bool.eq_false_iff]
          intro hjk
          rw [← Node.same_congr hj hjk, hjl] at hkl
          exact absurd hkl (by decide)
        simp [hjk]
      | false => simp

/-- Every entry after an update is one from before or has the new value. -/
theorem mem_update {e : Node × Node} (h : e ∈ es.update k f) :
    e ∈ es ∨ (e.1 = k ∨ e.1 ∈ es.keys) ∧ e.2 = f (es.find? k) := by
  induction es with
  | nil =>
    rw [update, List.mem_singleton] at h
    rw [h]
    exact Or.inr ⟨Or.inl rfl, rfl⟩
  | cons d es ih =>
    obtain ⟨l, v⟩ := d
    rw [update] at h
    rw [find?_cons]
    cases hkl : k.same l with
    | true =>
      simp only [hkl, if_true, List.mem_cons] at h ⊢
      rcases h with rfl | h
      · exact Or.inr ⟨Or.inr (by simp [keys]), rfl⟩
      · exact Or.inl (Or.inr h)
    | false =>
      simp only [hkl, Bool.false_eq_true, if_false, List.mem_cons] at h ⊢
      rcases h with rfl | h
      · exact Or.inl (Or.inl rfl)
      -- The new value stands at the end or at a later key.
      · rcases ih h with h | ⟨h | h, hv⟩
        · exact Or.inl (Or.inr h)
        · exact Or.inr ⟨Or.inl h, hv⟩
        · exact Or.inr ⟨Or.inr (List.mem_cons_of_mem _ h), hv⟩

theorem keysDistinct_iff_keys :
    es.keysDistinct = true ↔ es.keys.Pairwise fun k l => k.same l = false := by
  rw [keysDistinct_iff, keys, List.pairwise_map]

/-- An update with a value that repeats no key keeps a mapping that repeats none. -/
theorem wellKeyed_update (hes : (Node.map es).WellKeyed) (hk : k.WellKeyed)
    (hf : (f (es.find? k)).WellKeyed) : (Node.map (es.update k f)).WellKeyed := by
  refine .map ?_ (fun e he => ?_) fun e he => ?_
  · have hd := hes.distinct_of_map
    rw [keysDistinct_iff_keys] at hd ⊢
    rw [keys_update, addKey]
    split
    · exact hd
    · rename_i hnone
      -- A key is added behind the others only if none of them is the same.
      rw [List.pairwise_append]
      refine ⟨hd, List.pairwise_singleton _ _, fun l hl m hm => ?_⟩
      rw [List.mem_singleton] at hm
      rw [hm, Node.same_comm (wellKeyed_of_mem_keys hes hl) hk, Bool.eq_false_iff]
      intro h
      exact hnone (List.any_eq_true.2 ⟨l, hl, h⟩)
  · rcases mem_update he with he | ⟨rfl | he, _⟩
    · exact hes.key_of_mem he
    · exact hk
    · exact wellKeyed_of_mem_keys hes he
  · rcases mem_update he with he | ⟨_, hv⟩
    · exact hes.value_of_mem he
    · rw [hv]
      exact hf

/-! ### Modifying -/

section Modify

variable {g : Node → Node}

theorem keys_modify (k : Node) (g : Node → Node) (es : Entries) :
    (es.modify k g).keys = es.keys := by
  induction es with
  | nil => rfl
  | cons e es ih =>
    obtain ⟨l, v⟩ := e
    rw [modify]
    split
    · rfl
    · exact congrArg (l :: ·) ih

/-- A change to a field is seen at the field, if it is there. -/
theorem field?_modify (name other : String) (g : Node → Node) (es : Entries) :
    (es.modify (.str other) g).field? name =
      if name = other then (es.field? name).map g else es.field? name := by
  induction es with
  | nil =>
    rw [modify]
    split <;> rfl
  | cons e es ih =>
    obtain ⟨l, v⟩ := e
    rw [field?, field?] at ih ⊢
    rw [modify, find?_cons]
    by_cases hl : (Node.str other).same l = true
    · rw [if_pos hl, find?_cons]
      obtain rfl := Node.same_str_iff.1 hl
      by_cases hname : name = other
      · subst hname
        rw [if_pos hl, if_pos hl, if_pos rfl, Option.map_some]
      · have hne : ¬ (Node.str name).same (.str other) = true := by
          rw [Node.same_str_iff, Node.str.injEq]
          exact Ne.symm hname
        rw [if_neg hne, if_neg hne, if_neg hname]
    · rw [if_neg hl, find?_cons, ih]
      by_cases hname : name = other
      · subst hname
        rw [if_neg hl, if_neg hl, if_pos rfl]
      · rw [if_neg hname, if_neg hname]

/-- A change to a field is seen at this field only. -/
theorem find?_modify_of_not_same {name : String} (h : j.same (.str name) = false)
    (g : Node → Node) (es : Entries) : (es.modify (.str name) g).find? j = es.find? j := by
  induction es with
  | nil => rfl
  | cons e es ih =>
    obtain ⟨l, v⟩ := e
    rw [modify]
    split
    · rename_i hl
      rw [Node.same_str_iff.1 hl, find?_cons, find?_cons, h]
      rfl
    · rw [find?_cons, find?_cons, ih]

/-- A change that leaves the value that it finds as it is changes nothing. -/
theorem modify_eq_self (h : ∀ v, es.find? k = some v → g v = v) : es.modify k g = es := by
  induction es with
  | nil => rfl
  | cons e es ih =>
    obtain ⟨l, v⟩ := e
    simp only [find?_cons] at h
    rw [modify]
    split
    · rename_i hkl
      rw [if_pos hkl] at h
      rw [h v rfl]
    · rename_i hkl
      rw [if_neg hkl] at h
      rw [ih h]

/-- Every entry after a change comes from one with its key. -/
theorem mem_modify {e : Node × Node} (h : e ∈ es.modify k g) :
    ∃ d ∈ es, e.1 = d.1 ∧ (e.2 = d.2 ∨ e.2 = g d.2) := by
  induction es with
  | nil => exact absurd h List.not_mem_nil
  | cons d es ih =>
    obtain ⟨l, v⟩ := d
    rw [modify] at h
    split at h
    · rcases List.mem_cons.1 h with rfl | h
      · exact ⟨(l, v), List.mem_cons_self, rfl, Or.inr rfl⟩
      · exact ⟨e, List.mem_cons_of_mem _ h, rfl, Or.inl rfl⟩
    · rcases List.mem_cons.1 h with rfl | h
      · exact ⟨(l, v), List.mem_cons_self, rfl, Or.inl rfl⟩
      · obtain ⟨d, hd, hkey, hvalue⟩ := ih h
        exact ⟨d, List.mem_cons_of_mem _ hd, hkey, hvalue⟩

theorem wellKeyed_modify (hes : (Node.map es).WellKeyed)
    (hg : ∀ v : Node, v.WellKeyed → (g v).WellKeyed) : (Node.map (es.modify k g)).WellKeyed := by
  refine .map ?_ (fun e he => ?_) fun e he => ?_
  · rw [keysDistinct_iff_keys, keys_modify, ← keysDistinct_iff_keys]
    exact hes.distinct_of_map
  · obtain ⟨d, hd, hkey, _⟩ := mem_modify he
    rw [hkey]
    exact hes.key_of_mem hd
  · obtain ⟨d, hd, _, hvalue | hvalue⟩ := mem_modify he
    · rw [hvalue]
      exact hes.value_of_mem hd
    · rw [hvalue]
      exact hg d.2 (hes.value_of_mem hd)

end Modify

/-- Distinct keys are added in their order, except for those that are there already. -/
theorem foldl_addKey_eq_append_filter {seen ks : List Node} (hks : ∀ k ∈ ks, k.WellKeyed)
    (h : ks.Pairwise fun k l => k.same l = false) :
    ks.foldl addKey seen = seen ++ ks.filter fun k => !seen.any k.same := by
  induction ks generalizing seen with
  | nil => rw [List.foldl_nil, List.filter_nil, List.append_nil]
  | cons k ks ih =>
    rw [List.forall_mem_cons] at hks
    rw [List.pairwise_cons] at h
    rw [List.foldl_cons, ih hks.2 h.2, addKey, List.filter_cons]
    cases hk : seen.any k.same with
    | true => rfl
    | false =>
      -- The key that was added keeps none of the later ones out.
      have hfilter : (ks.filter fun l => !(seen ++ [k]).any l.same) =
          ks.filter fun l => !seen.any l.same := by
        refine List.filter_congr fun l hl => ?_
        have hlk : l.same k = false := (Node.same_comm (hks.2 l hl) hks.1).trans (h.1 l hl)
        rw [List.any_append, List.any_cons, List.any_nil, hlk, Bool.or_false, Bool.or_false]
      rw [if_neg (by decide), hfilter, List.append_assoc]
      rfl

/-- Adding the keys of a mapping to none gives them back. -/
theorem foldl_addKey_keys (hes : (Node.map es).WellKeyed) : es.keys.foldl addKey [] = es.keys := by
  rw [foldl_addKey_eq_append_filter (fun _ hk => wellKeyed_of_mem_keys hes hk)
    (keysDistinct_iff_keys.1 hes.distinct_of_map), List.nil_append]
  exact List.filter_eq_self.2 fun _ _ => rfl

end Entries

end Foundry.Yaml
