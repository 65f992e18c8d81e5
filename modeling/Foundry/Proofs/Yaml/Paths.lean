import Foundry.Proofs.Yaml.Merge

/-!
# What a merge holds at a path

A path leads through mappings without tags. What a merge holds at its end is there in the overlay,
or it is there in the base and the overlay leaves the path open: nothing stands at the path in it,
and nothing but mappings on the way there. Something else on the way cuts off all that the base has
behind it.

* `at?_merge_eq`: what is at a path, by the two values alone.
* `keys_mergeEntries_eq_append`: the keys of two mappings, in order.
* `merge_along_paths`: both for mappings and for all other values.
-/

namespace Foundry.Yaml.Node

open Entries

/-- The value has nothing at a path, and nothing but mappings on the way there. -/
def LeavesOpen (n : Node) (p : List Node) : Prop :=
  n.at? p = none ∧ ∀ q, q <+: p → q ≠ p → ∀ v, n.at? q = some v → v.isMap = true

variable {a b n v : Node} {es fs : Entries} {k : Node} {p : List Node}

/-! ### Open paths -/

theorem not_leavesOpen_of_at? (h : n.at? p = some v) : ¬ LeavesOpen n p := by
  rintro ⟨hnone, _⟩
  rw [h] at hnone
  cases hnone

theorem not_leavesOpen_of_not_isMap (h : n.isMap = false) : ¬ LeavesOpen n p := by
  cases p with
  | nil => exact not_leavesOpen_of_at? (at?_nil n)
  | cons k p =>
    rintro ⟨_, hway⟩
    have hmap := hway [] List.nil_prefix (by simp) n (at?_nil n)
    rw [h] at hmap
    cases hmap

/-- A mapping leaves a path open if the value at its first key does, or if there is none. -/
theorem leavesOpen_cons_iff :
    LeavesOpen (map es) (k :: p) ↔ ∀ v, Entries.find? k es = some v → LeavesOpen v p := by
  have hstep : ∀ v, Entries.find? k es = some v → ∀ q, (map es).at? (k :: q) = v.at? q := by
    intro v hv q
    rw [at?_cons_of_map, hv, Option.bind_some]
  constructor
  · rintro ⟨hnone, hway⟩ v hv
    refine ⟨(hstep v hv p).symm.trans hnone, fun q hq hne w hw => ?_⟩
    refine hway (k :: q) (List.prefix_cons_inj k |>.2 hq) ?_ w ((hstep v hv q).trans hw)
    simpa using hne
  · intro h
    refine ⟨?_, fun q hq hne w hw => ?_⟩
    · cases hfind : Entries.find? k es with
      | none => rw [at?_cons_of_map, hfind, Option.bind_none]
      | some v => exact (hstep v hfind p).trans (h v hfind).1
    · rcases q with _ | ⟨j, q⟩
      · rw [at?_nil, Option.some.injEq] at hw
        rw [← hw]
        rfl
      · obtain ⟨rfl, hrest⟩ := List.cons_prefix_cons.1 hq
        obtain ⟨gs, v, hgs, hv, hw⟩ := at?_cons_eq_some hw
        obtain rfl := Node.map.inj hgs
        exact (h v hv).2 q hrest (by simpa using hne) w hw

/-! ### Values at a path -/

theorem laidOver_eq_some_iff_of_not_isMap {x : Option Node} {m : Node} (hm : m.isMap = false) :
    laidOver x (some v) = some m ↔ v = m := by
  cases x with
  | none => rw [none_laidOver, Option.some.injEq]
  | some o =>
    rw [some_laidOver_some, Option.some.injEq]
    cases hv : v.isMap with
    | false => rw [merge_eq_overlay (Or.inr hv)]
    | true =>
      -- A mapping stays one, whatever it is laid over.
      have hne : ∀ n : Node, n.isMap = true → n ≠ m := by
        rintro n hn rfl
        rw [hm] at hn
        cases hn
      exact iff_of_false (hne _ ((isMap_merge o v).trans hv)) (hne _ hv)

theorem exists_laidOver_eq_map_iff {x : Option Node} :
    (∃ gs, laidOver x (some v) = some (map gs)) ↔ ∃ fs, v = map fs := by
  cases x with
  | none => simp
  | some o =>
    simp only [some_laidOver_some, Option.some.injEq]
    rw [← isMap_iff, ← isMap_iff, isMap_merge]

open Classical in
/-- What a merge holds at a path: what the base has there, if the overlay leaves the path open, and
else what the overlay has, laid over it. -/
theorem at?_merge_eq (hb : b.WellKeyed) (hp : ∀ k ∈ p, k.WellKeyed) :
    (a.merge b).at? p =
      if LeavesOpen b p then a.at? p else (b.at? p).bind fun v => laidOver (a.at? p) (some v) := by
  induction p generalizing a b with
  | nil => rw [if_neg (not_leavesOpen_of_at? (at?_nil b))]; simp
  | cons k p ih =>
    rw [List.forall_mem_cons] at hp
    cases hbmap : b.isMap with
    | false =>
      rw [merge_eq_overlay (Or.inr hbmap), if_neg (not_leavesOpen_of_not_isMap hbmap),
        at?_cons_of_not_map hbmap, Option.bind_none]
    | true =>
      obtain ⟨fs, rfl⟩ := isMap_iff.1 hbmap
      cases hamap : a.isMap with
      | false =>
        -- The overlay stands alone, and the base leads nowhere.
        rw [merge_eq_overlay (Or.inl hamap), at?_cons_of_not_map hamap]
        split_ifs with hopen
        · exact hopen.1
        · simp
      | true =>
        obtain ⟨es, rfl⟩ := isMap_iff.1 hamap
        rw [merge_map, at?_cons_of_map, find?_mergeEntries hb hp.1, leavesOpen_cons_iff,
          at?_cons_of_map, at?_cons_of_map]
        cases hw : Entries.find? k fs with
        | none => simp
        | some w =>
          cases hu : Entries.find? k es with
          | none =>
            simp only [none_laidOver, Option.bind_some, Option.bind_none, Option.some.injEq,
              forall_eq', Option.bind_fun_some]
            split_ifs with hopen
            · exact hopen.1
            · rfl
          | some u =>
            simp only [some_laidOver_some, Option.bind_some, Option.some.injEq, forall_eq']
            exact ih (wellKeyed_of_find? hb hw) hp.2

/-! ### Mappings and other values -/

section Paths

variable (hb : b.WellKeyed) (hp : ∀ k ∈ p, k.WellKeyed)

include hb hp

/-- **Values that are no mappings.** A merge has one at a path if the overlay has it, or if the base
has it and the overlay leaves the path open. -/
theorem at?_merge_iff_of_not_isMap {x : Node} (hx : x.isMap = false) :
    (a.merge b).at? p = some x ↔ b.at? p = some x ∨ a.at? p = some x ∧ LeavesOpen b p := by
  rw [at?_merge_eq hb hp]
  by_cases hopen : LeavesOpen b p
  · simp [hopen, hopen.1]
  · rw [if_neg hopen]
    cases hv : b.at? p with
    | none => simp [hopen]
    | some v =>
      rw [Option.bind_some, laidOver_eq_some_iff_of_not_isMap hx]
      simp [hopen]

/-- **Mappings.** A merge has one at a path if the overlay does, or if the base does and the overlay
leaves the path open. -/
theorem exists_at?_merge_eq_map_iff :
    (∃ gs, (a.merge b).at? p = some (map gs)) ↔
      (∃ fs, b.at? p = some (map fs)) ∨ (∃ es, a.at? p = some (map es)) ∧ LeavesOpen b p := by
  rw [at?_merge_eq hb hp]
  by_cases hopen : LeavesOpen b p
  · simp [hopen, hopen.1]
  · rw [if_neg hopen]
    cases hv : b.at? p with
    | none => simp [hopen]
    | some v =>
      rw [Option.bind_some, exists_laidOver_eq_map_iff]
      simp [hopen]

/-- Where both have a mapping, the merge has the merge of the two. -/
theorem at?_merge_of_maps (hes : a.at? p = some (map es)) (hfs : b.at? p = some (map fs)) :
    (a.merge b).at? p = some (map (mergeEntries es fs)) := by
  rw [at?_merge_eq hb hp, if_neg (not_leavesOpen_of_at? hfs), hes, hfs, Option.bind_some,
    some_laidOver_some, merge_map]

end Paths

/-- The keys of the base come first, and those that only the overlay has behind them. -/
theorem keys_mergeEntries_eq_append (hfs : (map fs).WellKeyed) :
    Entries.keys (mergeEntries es fs) =
      Entries.keys es ++ (Entries.keys fs).filter fun k => !(Entries.keys es).any k.same := by
  rw [keys_mergeEntries]
  exact foldl_addKey_eq_append_filter (fun _ hk => wellKeyed_of_mem_keys hfs hk)
    (keysDistinct_iff_keys.1 hfs.distinct_of_map)

/-- Numbers of two kinds and a string are three keys, whatever they say. -/
theorem merge_of_kinds (i : Int) (x : Decimal.Binary64) (s : String) (u v w : Node) :
    (map [(int i, u)]).merge (map [(float x, v), (str s, w)]) =
      map [(int i, u), (float x, v), (str s, w)] := by
  simp [mergeEntries, update, same]

/-- **A merge, path by path.** Of values that repeat no key the merge repeats none. At every path it
has a value that is no mapping exactly if the overlay has it there, or the base has it and the
overlay leaves the path open; and it has a mapping there under the same condition. Where both have
one, the keys of the base come first, in their order, and those that only the overlay has follow in
theirs. An integer, a floating-point number and a string are never one key. -/
theorem merge_along_paths (ha : a.WellKeyed) (hb : b.WellKeyed) :
    (a.merge b).WellKeyed ∧
    (∀ p : List Node, (∀ k ∈ p, k.WellKeyed) →
      (∀ x : Node, x.isMap = false → ((a.merge b).at? p = some x ↔
        b.at? p = some x ∨ a.at? p = some x ∧ LeavesOpen b p)) ∧
      ((∃ gs, (a.merge b).at? p = some (map gs)) ↔
        (∃ fs, b.at? p = some (map fs)) ∨ (∃ es, a.at? p = some (map es)) ∧ LeavesOpen b p) ∧
      ∀ es fs, a.at? p = some (map es) → b.at? p = some (map fs) →
        ∃ gs, (a.merge b).at? p = some (map gs) ∧ Entries.keys gs =
          Entries.keys es ++ (Entries.keys fs).filter fun k => !(Entries.keys es).any k.same) ∧
    ∀ (i : Int) (x : Decimal.Binary64) (s : String) (u v w : Node),
      (map [(int i, u)]).merge (map [(float x, v), (str s, w)]) =
        map [(int i, u), (float x, v), (str s, w)] := by
  refine ⟨ha.merge hb, fun p hp => ⟨?_, ?_, ?_⟩, merge_of_kinds⟩
  · exact fun x hx => at?_merge_iff_of_not_isMap hb hp hx
  · exact exists_at?_merge_eq_map_iff hb hp
  · intro es fs hes hfs
    exact ⟨_, at?_merge_of_maps hb hp hes hfs, keys_mergeEntries_eq_append (hb.at? hfs)⟩

/-- A base with a mapping at `p` and `y`. -/
def deepBase : Node :=
  map [(str "p", map [(str "x", int 1), (str "y", map [(str "t", int 2)])])]

/-- An overlay with a number there. -/
def cuttingOverlay : Node :=
  map [(str "p", map [(str "z", int 3), (str "y", int 5)])]

/-- What the base has at `x` is left, what it has behind `y` is not, and `z` comes last. -/
theorem merge_along_paths_cuttingOverlay :
    deepBase.WellKeyed ∧ cuttingOverlay.WellKeyed ∧
      (deepBase.merge cuttingOverlay).at? [str "p", str "x"] = some (int 1) ∧
      (deepBase.merge cuttingOverlay).at? [str "p", str "y"] = some (int 5) ∧
      (deepBase.merge cuttingOverlay).at? [str "p", str "y", str "t"] ≠ some (int 2) ∧
      ∃ gs, (deepBase.merge cuttingOverlay).at? [str "p"] = some (map gs) ∧
        Entries.keys gs = [str "x", str "y", str "z"] := by
  have hbase : deepBase.WellKeyed := by simp [deepBase, keysDistinct, same]
  have hover : cuttingOverlay.WellKeyed := by simp [cuttingOverlay, keysDistinct, same]
  have hpaths := (merge_along_paths hbase hover).2.1
  have hx := (hpaths [str "p", str "x"] (by simp)).1 (int 1) rfl
  have hy := (hpaths [str "p", str "y"] (by simp)).1 (int 5) rfl
  have ht := (hpaths [str "p", str "y", str "t"] (by simp)).1 (int 2) rfl
  have hkeys := (hpaths [str "p"] (by simp)).2.2 _ _ rfl rfl
  have hopen : LeavesOpen cuttingOverlay [str "p", str "x"] := by
    refine leavesOpen_cons_iff.2 fun v hv => ?_
    obtain rfl := Option.some.inj hv
    exact leavesOpen_cons_iff.2 fun w hw => by cases hw
  refine ⟨hbase, hover, hx.2 (Or.inr ⟨rfl, hopen⟩), hy.2 (Or.inl rfl), ?_, hkeys⟩
  rw [ne_eq, ht]
  rintro (h | ⟨_, _, hway⟩)
  · cases h
  · have hfive := hway [str "p", str "y"] (by simp) (by simp) (int 5) rfl
    cases hfive

end Foundry.Yaml.Node
