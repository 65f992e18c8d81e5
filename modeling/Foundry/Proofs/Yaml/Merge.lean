import Foundry.Proofs.Yaml.Lookup

/-!
# Laws of merging

A merge of mappings is described by its keys (`keys_mergeEntries`) and by the value at each of them
(`find?_mergeEntries`): the keys of the base come first, and a value that both sides have is merged
in turn. `Node.at?` follows a path of keys through mappings without tags, the only ones that a
merge goes into.

* `WellKeyed.merge`: a merge does not repeat a key.
* `mergeEntries_eq`: what shows that a merge is a given mapping.
* `empty_merge`: a merge onto the empty mapping changes nothing, the order of keys included.
-/

namespace Foundry.Yaml

namespace Node

/-- Whether the value is a mapping without a tag. -/
def isMap : Node → Bool
  | map _ => true
  | _ => false

theorem isMap_iff {n : Node} : n.isMap = true ↔ ∃ es, n = map es := by
  cases n <;> simp [isMap]

theorem not_isMap_iff {n : Node} : n.isMap = false ↔ ∀ es, n ≠ map es := by
  rw [← Bool.not_eq_true, isMap_iff, not_exists]

@[simp]
theorem isMap_map (es : Entries) : (map es).isMap = true := rfl

/-! ### One level -/

/-- Only two mappings are merged entry by entry. -/
@[simp]
theorem merge_map (es fs : Entries) : (map es).merge (map fs) = map (mergeEntries es fs) := by
  rw [merge]

/-- Unless both are mappings, the value on top replaces the one below. -/
theorem merge_eq_overlay {base overlay : Node} (h : base.isMap = false ∨ overlay.isMap = false) :
    base.merge overlay = overlay := by
  cases base <;> cases overlay <;> simp_all [merge, isMap]

/-- A merge is a mapping exactly if the value on top is one. -/
theorem isMap_merge (a b : Node) : (a.merge b).isMap = b.isMap := by
  cases ha : a.isMap with
  | false => rw [merge_eq_overlay (Or.inl ha)]
  | true =>
    cases hb : b.isMap with
    | false => rw [merge_eq_overlay (Or.inr hb), hb]
    | true =>
      obtain ⟨es, rfl⟩ := isMap_iff.1 ha
      obtain ⟨fs, rfl⟩ := isMap_iff.1 hb
      rw [merge_map, isMap_map]

/-- A value that may be absent, laid over another one. -/
def laidOver : Option Node → Option Node → Option Node
  | old, none => old
  | old, some v => some (old.elim v fun o => o.merge v)

@[simp]
theorem laidOver_none (x : Option Node) : laidOver x none = x := by
  rw [laidOver]

@[simp]
theorem none_laidOver (x : Option Node) : laidOver none x = x := by
  cases x <;> rfl

@[simp]
theorem some_laidOver_some (o v : Node) : laidOver (some o) (some v) = some (o.merge v) := rfl

variable {base overlay : Entries}

/-- The keys of a merge are those of the base, and behind them the new ones of the overlay in their
order. -/
theorem keys_mergeEntries (base overlay : Entries) :
    Entries.keys (mergeEntries base overlay) = overlay.keys.foldl Entries.addKey base.keys := by
  induction overlay generalizing base with
  | nil => rw [mergeEntries]; rfl
  | cons e es ih =>
    obtain ⟨k, v⟩ := e
    rw [mergeEntries, ih, Entries.keys_update]
    rfl

/-- What is found at a key of a merge is the value of the overlay laid over that of the base. -/
theorem find?_mergeEntries (hover : (map overlay).WellKeyed) {j : Node} (hj : j.WellKeyed) :
    Entries.find? j (mergeEntries base overlay) = laidOver (base.find? j) (overlay.find? j) := by
  induction overlay generalizing base with
  | nil => rw [mergeEntries, Entries.find?_nil, laidOver_none]
  | cons e es ih =>
    obtain ⟨k, v⟩ := e
    have hk : k.WellKeyed := hover.key_of_mem List.mem_cons_self
    rw [mergeEntries, ih hover.tail, Entries.find?_update hj hk, Entries.find?_cons]
    cases hjk : j.same k with
    | false => simp
    | true =>
      -- No later entry has the key again.
      have hlater : Entries.find? j es = none := by
        rw [Entries.find?_eq_none_iff]
        intro e he
        have hd := hover.distinct_of_map
        rw [Entries.keysDistinct_iff, List.pairwise_cons] at hd
        rw [same_congr hj hjk]
        exact hd.1 e he
      rw [hlater, laidOver_none, ← Entries.find?_congr hj hjk]
      rfl

/-- A merge of entries repeats no key, if that holds of the merges of their values. -/
theorem wellKeyed_mergeEntries (hbase : (map base).WellKeyed) (hover : (map overlay).WellKeyed)
    (hvalue : ∀ e ∈ overlay, ∀ n : Node, n.WellKeyed → (n.merge e.2).WellKeyed) :
    (map (mergeEntries base overlay)).WellKeyed := by
  induction overlay generalizing base with
  | nil => rw [mergeEntries]; exact hbase
  | cons e es ih =>
    obtain ⟨k, v⟩ := e
    rw [mergeEntries]
    refine ih (Entries.wellKeyed_update hbase (hover.key_of_mem List.mem_cons_self) ?_)
      hover.tail fun e he => hvalue e (List.mem_cons_of_mem _ he)
    -- The new value stands alone or is merged with the old one.
    cases hfind : base.find? k with
    | none => exact hover.value_of_mem List.mem_cons_self
    | some o =>
      exact hvalue (k, v) List.mem_cons_self o (Entries.wellKeyed_of_find? hbase hfind)

/-- A merge of values that repeat no key repeats none. -/
theorem WellKeyed.merge {a b : Node} (ha : a.WellKeyed) (hb : b.WellKeyed) :
    (a.merge b).WellKeyed := by
  induction hb generalizing a with
  | @map fs distinct keys values _ ihv =>
    cases hmap : a.isMap with
    | false =>
      rw [merge_eq_overlay (Or.inl hmap)]
      exact .map distinct keys values
    | true =>
      obtain ⟨es, rfl⟩ := isMap_iff.1 hmap
      rw [merge_map]
      exact wellKeyed_mergeEntries ha (.map distinct keys values) fun e he n hn => ihv e he hn
  -- All others replace what is below.
  | null => rw [merge_eq_overlay (Or.inr rfl)]; exact .null
  | bool b => rw [merge_eq_overlay (Or.inr rfl)]; exact .bool b
  | int i => rw [merge_eq_overlay (Or.inr rfl)]; exact .int i
  | float x => rw [merge_eq_overlay (Or.inr rfl)]; exact .float x
  | str s => rw [merge_eq_overlay (Or.inr rfl)]; exact .str s
  | seq each _ => rw [merge_eq_overlay (Or.inr rfl)]; exact .seq each
  | tagged tag node _ => rw [merge_eq_overlay (Or.inr rfl)]; exact .tagged tag node

/-- A merge of mappings is known by its keys and by what is found at each of them. -/
theorem mergeEntries_eq {es : Entries} (hbase : (map base).WellKeyed)
    (hover : (map overlay).WellKeyed)
    (hkeys : Entries.keys (mergeEntries base overlay) = Entries.keys es)
    (h : ∀ k : Node, k.WellKeyed → laidOver (base.find? k) (overlay.find? k) = es.find? k) :
    mergeEntries base overlay = es := by
  have hmerged : (map (mergeEntries base overlay)).WellKeyed :=
    merge_map base overlay ▸ hbase.merge hover
  refine Entries.ext_of_keys_eq hmerged hkeys fun k hk => ?_
  have hk : k.WellKeyed := Entries.wellKeyed_of_mem_keys hmerged hk
  rw [find?_mergeEntries hover hk]
  exact h k hk

/-! ### The empty mapping -/

theorem wellKeyed_empty : (map []).WellKeyed :=
  .map rfl (fun _ h => absurd h List.not_mem_nil) fun _ h => absurd h List.not_mem_nil

/-- **The empty mapping is a left identity.** Nothing moves, at any depth. -/
theorem empty_merge {n : Node} (hn : n.WellKeyed) : (map []).merge n = n := by
  cases hmap : n.isMap with
  | false => exact merge_eq_overlay (Or.inr hmap)
  | true =>
    obtain ⟨es, rfl⟩ := isMap_iff.1 hmap
    -- The keys come back in their order, since none of them is there before.
    have hkeys : Entries.keys (mergeEntries [] es) = Entries.keys es := by
      rw [keys_mergeEntries]
      exact Entries.foldl_addKey_keys hn
    rw [merge_map, mergeEntries_eq wellKeyed_empty hn hkeys]
    intro k _
    rw [Entries.find?_nil, none_laidOver]

/-! ### Paths -/

/-- The value at a path of keys, through mappings without tags. -/
def at? : Node → List Node → Option Node
  | n, [] => some n
  | map es, k :: p => (Entries.find? k es).bind fun v => v.at? p
  | _, _ :: _ => none

@[simp]
theorem at?_nil (n : Node) : n.at? [] = some n := by
  rw [at?]

theorem at?_cons_of_map (es : Entries) (k : Node) (p : List Node) :
    (map es).at? (k :: p) = (es.find? k).bind fun v => v.at? p := by
  rw [at?]

theorem at?_cons_of_not_map {n : Node} (h : n.isMap = false) (k : Node) (p : List Node) :
    n.at? (k :: p) = none := by
  cases n <;> first | rfl | cases h

/-- A path goes on through a mapping only. -/
theorem at?_cons_eq_some {n v : Node} {k : Node} {p : List Node} (h : n.at? (k :: p) = some v) :
    ∃ es w, n = map es ∧ Entries.find? k es = some w ∧ w.at? p = some v := by
  cases hn : n.isMap with
  | false =>
    rw [at?_cons_of_not_map hn] at h
    cases h
  | true =>
    obtain ⟨es, rfl⟩ := isMap_iff.1 hn
    rw [at?_cons_of_map, Option.bind_eq_some_iff] at h
    obtain ⟨w, hw, hv⟩ := h
    exact ⟨es, w, rfl, hw, hv⟩

/-- At every path, a value repeats no key if the whole does not. -/
theorem WellKeyed.at? {n v : Node} {p : List Node} (hn : n.WellKeyed) (h : n.at? p = some v) :
    v.WellKeyed := by
  induction p generalizing n with
  | nil =>
    rw [at?_nil, Option.some.injEq] at h
    rw [← h]
    exact hn
  | cons k p ih =>
    obtain ⟨es, w, rfl, hw, hv⟩ := at?_cons_eq_some h
    exact ih (Entries.wellKeyed_of_find? hn hw) hv

end Node

end Foundry.Yaml
