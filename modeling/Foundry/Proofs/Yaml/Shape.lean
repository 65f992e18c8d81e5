import Foundry.Proofs.Yaml.Associativity
import Mathlib.Data.List.Induction

/-!
# Values of one shape

Values are of one shape when no path leads to a mapping in one of them and to something else in
another. The shape is kept apart from the values, as a function that says of each path whether a
mapping belongs there; so that a merge keeps it (`Shaped.merge`) needs no second look at the values
that were merged before.

* `stacked_append`: values of one shape may be stacked in groups.
* `at?_stacked_iff`: what is no mapping comes from the last value that has something at its path.
* `keysAt_stacked`: the keys of a mapping stand in the order in which the values define them first.
-/

namespace Foundry.Yaml.Node

open Entries

/-- A mapping stands in the value where the shape has one, and something else elsewhere. -/
def Shaped (shape : List Node → Bool) (n : Node) : Prop :=
  ∀ p : List Node, (∀ k ∈ p, k.WellKeyed) → ∀ v, n.at? p = some v → v.isMap = shape p

/-- Values laid one over another, onto the empty mapping. -/
def stacked (ns : List Node) : Node :=
  ns.foldl merge (map [])

/-- The keys of the mapping at a path, if there is one. -/
def keysAt (p : List Node) (n : Node) : List Node :=
  match n.at? p with
  | some (map es) => Entries.keys es
  | _ => []

variable {shape : List Node → Bool} {a b c n v : Node} {p : List Node}

/-! ### Shapes -/

theorem Shaped.isMap (h : Shaped shape n) : n.isMap = shape [] :=
  h [] (List.forall_mem_nil _) n (at?_nil n)

/-- The values of a mapping have the shape beneath their key. -/
theorem Shaped.of_find? {es : Entries} {k : Node} (h : Shaped shape (map es)) (hk : k.WellKeyed)
    (hv : Entries.find? k es = some v) : Shaped (fun p => shape (k :: p)) v := by
  intro p hp w hw
  refine h (k :: p) (List.forall_mem_cons.2 ⟨hk, hp⟩) w ?_
  rw [at?_cons_of_map, hv]
  exact hw

theorem eq_of_at?_empty (h : (map []).at? p = some v) : p = [] ∧ v = map [] := by
  rcases p with _ | ⟨k, p⟩
  · rw [at?_nil, Option.some.injEq] at h
    exact ⟨rfl, h.symm⟩
  · rw [at?_cons_of_map, find?_nil] at h
    cases h

/-- Nothing stands beneath a value that is no mapping. -/
theorem shaped_of_not_isMap (hn : n.isMap = false) (hshape : shape [] = false) :
    Shaped shape n := by
  intro p _ v hv
  rcases p with _ | ⟨k, p⟩
  · rw [at?_nil, Option.some.injEq] at hv
    rw [← hv, hn, hshape]
  · rw [at?_cons_of_not_map hn] at hv
    cases hv

/-- A mapping is of a shape if its values are of the shapes beneath it. -/
theorem shaped_map {es : Entries} (hshape : shape [] = true)
    (hes : ∀ e ∈ es, ∀ k, k.same e.1 = true → Shaped (fun p => shape (k :: p)) e.2) :
    Shaped shape (map es) := by
  intro p hp v hv
  rcases p with _ | ⟨k, p⟩
  · rw [at?_nil, Option.some.injEq] at hv
    rw [← hv, hshape]
    rfl
  · rw [at?_cons_of_map, Option.bind_eq_some_iff] at hv
    obtain ⟨w, hw, hv⟩ := hv
    obtain ⟨l, hl, hk⟩ := mem_of_find?_eq_some hw
    exact hes (l, w) hl k hk p (fun j hj => hp j (List.mem_cons_of_mem k hj)) v hv

theorem shaped_empty (hshape : shape [] = true) : Shaped shape (map []) :=
  shaped_map hshape (List.forall_mem_nil _)

/-- Values of one shape merge path by path. -/
theorem at?_merge (hb : b.WellKeyed) (hp : ∀ k ∈ p, k.WellKeyed) (sa : Shaped shape a)
    (sb : Shaped shape b) : (a.merge b).at? p = laidOver (a.at? p) (b.at? p) := by
  induction p generalizing a b shape with
  | nil => rw [at?_nil, at?_nil, at?_nil, some_laidOver_some]
  | cons k p ih =>
    rw [List.forall_mem_cons] at hp
    -- Both values are mappings or neither is, and then no path leads into the first one.
    cases hmap : shape [] with
    | false =>
      rw [← sa.isMap] at hmap
      rw [merge_eq_overlay (Or.inl hmap), at?_cons_of_not_map hmap, none_laidOver]
    | true =>
      obtain ⟨es, rfl⟩ := isMap_iff.1 (sa.isMap.trans hmap)
      obtain ⟨fs, rfl⟩ := isMap_iff.1 (sb.isMap.trans hmap)
      rw [merge_map, at?_cons_of_map, at?_cons_of_map, at?_cons_of_map,
        find?_mergeEntries hb hp.1]
      cases hx : Entries.find? k es with
      | none => rw [none_laidOver, Option.bind_none, none_laidOver]
      | some x =>
        cases hy : Entries.find? k fs with
        | none => rw [laidOver_none, Option.bind_none, laidOver_none]
        | some y =>
          exact ih (wellKeyed_of_find? hb hy) hp.2 (sa.of_find? hp.1 hx) (sb.of_find? hp.1 hy)

/-- **A merge keeps the shape.** -/
theorem Shaped.merge (hb : b.WellKeyed) (sa : Shaped shape a) (sb : Shaped shape b) :
    Shaped shape (a.merge b) := by
  intro p hp v hv
  rw [at?_merge hb hp sa sb] at hv
  cases hx : a.at? p with
  | none =>
    rw [hx, none_laidOver] at hv
    exact sb p hp v hv
  | some x =>
    cases hy : b.at? p with
    | none =>
      rw [hx, hy, laidOver_none] at hv
      rw [← Option.some.inj hv]
      exact sa p hp x hx
    | some y =>
      rw [hx, hy, some_laidOver_some, Option.some.injEq] at hv
      rw [← hv, ← sb p hp y hy, isMap_merge]

/-- **Grouping.** Values of one shape can be regrouped. -/
theorem Shaped.mergeAssoc (ha : a.WellKeyed) (hb : b.WellKeyed) (hc : c.WellKeyed)
    (sa : Shaped shape a) (sb : Shaped shape b) : MergeAssoc a b c := by
  rw [mergeAssoc_iff_regroupable ha hb hc]
  intro p hp es m gs hes hm hnot _
  -- No mapping of `a` is replaced by something else of `b`.
  rw [sb p hp m hm, ← sa p hp _ hes] at hnot
  cases hnot

theorem laidOver_some_of_not_isMap {x : Option Node} (h : n.isMap = false) :
    laidOver x (some n) = some n := by
  cases x with
  | none => rfl
  | some o => rw [some_laidOver_some, merge_eq_overlay (Or.inr h)]

theorem keysAt_eq_nil_of_none (h : n.at? p = none) : keysAt p n = [] := by
  rw [keysAt, h]

/-- There are no keys where the shape has no mapping. -/
theorem Shaped.keysAt_eq_nil (sn : Shaped shape n) (hp : ∀ k ∈ p, k.WellKeyed)
    (hshape : shape p = false) : keysAt p n = [] := by
  rw [keysAt]
  split
  · rename_i es hes
    rw [← sn p hp _ hes] at hshape
    cases hshape
  · rfl

/-- **Keys at a path.** The keys of a merge are those of the base, and then the new ones of the
overlay. -/
theorem keysAt_merge (hb : b.WellKeyed) (hp : ∀ k ∈ p, k.WellKeyed) (sa : Shaped shape a)
    (sb : Shaped shape b) : keysAt p (a.merge b) = (keysAt p b).foldl addKey (keysAt p a) := by
  cases hshape : shape p with
  | false =>
    -- No mapping stands at the path, before or after.
    rw [(sa.merge hb sb).keysAt_eq_nil hp hshape, sa.keysAt_eq_nil hp hshape,
      sb.keysAt_eq_nil hp hshape, List.foldl_nil]
  | true =>
    have hat := at?_merge hb hp sa sb
    cases hy : b.at? p with
    | none =>
      rw [hy, laidOver_none] at hat
      rw [keysAt_eq_nil_of_none hy, List.foldl_nil, keysAt, keysAt, hat]
    | some y =>
      obtain ⟨fs, rfl⟩ := isMap_iff.1 ((sb p hp y hy).trans hshape)
      cases hx : a.at? p with
      | none =>
        rw [hx, hy, none_laidOver] at hat
        rw [keysAt_eq_nil_of_none hx, keysAt, keysAt, hat, hy]
        exact (foldl_addKey_keys (hb.at? hy)).symm
      | some x =>
        obtain ⟨es, rfl⟩ := isMap_iff.1 ((sa p hp x hx).trans hshape)
        rw [hx, hy, some_laidOver_some, merge_map] at hat
        rw [keysAt, keysAt, keysAt, hat, hx, hy]
        exact keys_mergeEntries es fs

/-! ### Stacks -/

theorem stacked_append_singleton (ns : List Node) (n : Node) :
    stacked (ns ++ [n]) = (stacked ns).merge n := by
  rw [stacked, List.foldl_append]
  rfl

section Stacks

variable {ns ms : List Node} (hshape : shape [] = true)
  (hns : ∀ n ∈ ns, n.WellKeyed ∧ Shaped shape n)

include hshape hns

/-- A stack of values of one shape has that shape, and repeats no key. -/
theorem stacked_spec : (stacked ns).WellKeyed ∧ Shaped shape (stacked ns) := by
  induction ns using List.reverseRecOn with
  | nil => exact ⟨wellKeyed_empty, shaped_empty hshape⟩
  | append_singleton ns n ih =>
    rw [List.forall_mem_append, List.forall_mem_singleton] at hns
    obtain ⟨hwell, hshaped⟩ := ih hns.1
    rw [stacked_append_singleton]
    exact ⟨hwell.merge hns.2.1, hshaped.merge hns.2.1 hns.2.2⟩

/-- **Stacks may be grouped.** -/
theorem stacked_append (hms : ∀ m ∈ ms, m.WellKeyed ∧ Shaped shape m) :
    (stacked ns).merge (stacked ms) = stacked (ns ++ ms) := by
  obtain ⟨hwell, hshaped⟩ := stacked_spec hshape hns
  induction ms using List.reverseRecOn with
  | nil =>
    obtain ⟨es, hes⟩ := isMap_iff.1 (hshaped.isMap.trans hshape)
    rw [List.append_nil, hes, stacked, List.foldl_nil, merge_map, mergeEntries]
  | append_singleton ms m ih =>
    rw [List.forall_mem_append, List.forall_mem_singleton] at hms
    obtain ⟨hwell', hshaped'⟩ := stacked_spec hshape hms.1
    have hassoc : MergeAssoc (stacked ns) (stacked ms) m :=
      hshaped.mergeAssoc hwell hwell' hms.2.1 hshaped'
    rw [← List.append_assoc, stacked_append_singleton, stacked_append_singleton, ← ih hms.1]
    exact hassoc.symm

/-- **The last one stands.** -/
theorem at?_stacked_iff (hp : ∀ k ∈ p, k.WellKeyed) (hv : v.isMap = false) :
    (stacked ns).at? p = some v ↔ (ns.filterMap (·.at? p)).getLast? = some v := by
  induction ns using List.reverseRecOn with
  | nil =>
    rw [List.filterMap_nil, List.getLast?_nil]
    constructor
    · intro h
      rw [(eq_of_at?_empty h).2] at hv
      cases hv
    · intro h
      cases h
  | append_singleton ns n ih =>
    rw [List.forall_mem_append, List.forall_mem_singleton] at hns
    obtain ⟨_, hshaped⟩ := stacked_spec hshape hns.1
    have hmerged := hshaped.merge hns.2.1 hns.2.2 p hp v
    rw [stacked_append_singleton]
    rw [at?_merge hns.2.1 hp hshaped hns.2.2] at hmerged ⊢
    rw [List.filterMap_append, List.getLast?_append]
    cases hy : n.at? p with
    | none =>
      rw [laidOver_none, ih hns.1]
      simp [hy]
    | some y =>
      have hlast : ([n].filterMap (·.at? p)).getLast? = some y := by simp [hy]
      rw [hlast, Option.some_or]
      cases hmap : y.isMap with
      | false => rw [laidOver_some_of_not_isMap hmap]
      | true =>
        -- A mapping stays one, whatever is beneath it.
        rw [hy, hv, ← hns.2.2 p hp y hy, hmap] at hmerged
        constructor
        · intro h
          exact absurd (hmerged h) (by decide)
        · intro h
          rw [Option.some.inj h, hv] at hmap
          cases hmap

/-- **First come, first placed.** -/
theorem keysAt_stacked (hp : ∀ k ∈ p, k.WellKeyed) :
    keysAt p (stacked ns) = (ns.flatMap (keysAt p)).foldl addKey [] := by
  induction ns using List.reverseRecOn with
  | nil =>
    rw [List.flatMap_nil, List.foldl_nil]
    cases p with
    | nil => rfl
    | cons k p => rfl
  | append_singleton ns n ih =>
    rw [List.forall_mem_append, List.forall_mem_singleton] at hns
    obtain ⟨_, hshaped⟩ := stacked_spec hshape hns.1
    rw [stacked_append_singleton, keysAt_merge hns.2.1 hp hshaped hns.2.2, ih hns.1,
      List.flatMap_append, List.flatMap_singleton, List.foldl_append]

end Stacks

end Foundry.Yaml.Node
