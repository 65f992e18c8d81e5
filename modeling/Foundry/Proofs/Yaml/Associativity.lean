import Foundry.Proofs.Yaml.Merge

/-!
# When merging is associative

Merging three values from the left or from the right gives the same unless the middle one replaces
a mapping by something else: merged from the left, what the first value has there is gone before
the third one comes; merged from the right, the third one is laid over it.

* `merge_assoc_iff`: both ways agree exactly when, wherever this happens, laying the third value
  over the first one gives the third one alone.
* `merge_merge_self`: so laying a value beneath another one twice is laying it once.

Over mappings the keys always agree, in order too (`keys_merge_assoc`), so both ways agree when they
do at each key that all three have (`mergeEntries_assoc_iff`); the induction is on the third value.
-/

namespace Foundry.Yaml

open Entries

/-! ### Keys -/

theorem any_same_addKey (ks : List Node) (k l : Node) :
    (addKey ks l).any k.same = (ks.any k.same || k.same l) := by
  rw [addKey]
  split
  · rename_i hl
    -- What is the same as `l` is the same as the key that is there in its place.
    obtain ⟨m, hm, hlm⟩ := List.any_eq_true.1 hl
    cases hkl : k.same l with
    | false => rw [Bool.or_false]
    | true =>
      rw [Bool.or_true]
      exact List.any_eq_true.2 ⟨m, hm, Node.same_trans hkl hlm⟩
  · rw [List.any_append, List.any_cons, List.any_nil, Bool.or_false]

/-- A key is there after others were added, if it was there or is among them. -/
theorem any_same_foldl_addKey (seen ks : List Node) (k : Node) :
    (ks.foldl addKey seen).any k.same = (seen.any k.same || ks.any k.same) := by
  induction ks generalizing seen with
  | nil => rw [List.foldl_nil, List.any_nil, Bool.or_false]
  | cons l ks ih => rw [List.foldl_cons, ih, any_same_addKey, List.any_cons, Bool.or_assoc]

/-- Keys may be added to a list that is added in turn. -/
theorem foldl_addKey_assoc (xs ys zs : List Node) :
    (zs.foldl addKey ys).foldl addKey xs = zs.foldl addKey (ys.foldl addKey xs) := by
  induction zs generalizing ys with
  | nil => rfl
  | cons k zs ih =>
    -- A key that the second list has already is not added to the first one again.
    have hone : (addKey ys k).foldl addKey xs = addKey (ys.foldl addKey xs) k := by
      cases hk : ys.any k.same with
      | true =>
        rw [addKey, if_pos hk, addKey, if_pos]
        rw [any_same_foldl_addKey, hk, Bool.or_true]
      | false =>
        rw [addKey, hk, if_neg (by decide), List.foldl_append, List.foldl_cons, List.foldl_nil]
    rw [List.foldl_cons, List.foldl_cons, ih, hone]

namespace Node

/-- The keys of three mappings come in one order, however they are grouped. -/
theorem keys_merge_assoc (es fs gs : Entries) :
    keys (mergeEntries (mergeEntries es fs) gs) = keys (mergeEntries es (mergeEntries fs gs)) := by
  rw [keys_mergeEntries, keys_mergeEntries, keys_mergeEntries, keys_mergeEntries,
    foldl_addKey_assoc]

/-! ### Values -/

/-- Whether three values merge alike from the left and from the right. -/
def MergeAssoc (a b c : Node) : Prop := (a.merge b).merge c = a.merge (b.merge c)

/-- Values that may be absent can be regrouped, unless all three are there and cannot. -/
theorem laidOver_assoc_iff {x y z : Option Node} :
    laidOver (laidOver x y) z = laidOver x (laidOver y z) ↔
      ∀ a b c, x = some a → y = some b → z = some c → MergeAssoc a b c := by
  constructor
  · rintro h a b c rfl rfl rfl
    rw [some_laidOver_some, some_laidOver_some, some_laidOver_some, some_laidOver_some] at h
    exact Option.some.inj h
  · intro h
    rcases x with _ | a
    · rw [none_laidOver, none_laidOver]
    · rcases y with _ | b
      · rw [none_laidOver, laidOver_none]
      · rcases z with _ | c
        · rw [laidOver_none, laidOver_none]
        · rw [some_laidOver_some, some_laidOver_some, some_laidOver_some, some_laidOver_some,
            h a b c rfl rfl rfl]

/-- Mappings merge alike both ways when they do at each key that all three of them have. -/
theorem mergeEntries_assoc_iff {es fs gs : Entries} (hes : (map es).WellKeyed)
    (hfs : (map fs).WellKeyed) (hgs : (map gs).WellKeyed) :
    MergeAssoc (map es) (map fs) (map gs) ↔ ∀ k : Node, k.WellKeyed → ∀ a b c,
      es.find? k = some a → fs.find? k = some b → gs.find? k = some c → MergeAssoc a b c := by
  have hfgs : (map (mergeEntries fs gs)).WellKeyed := merge_map fs gs ▸ hfs.merge hgs
  have hefs : (map (mergeEntries es fs)).WellKeyed := merge_map es fs ▸ hes.merge hfs
  rw [MergeAssoc, merge_map, merge_map, merge_map, merge_map, Node.map.injEq]
  constructor
  · intro h k hk
    rw [← laidOver_assoc_iff, ← find?_mergeEntries hfs hk, ← find?_mergeEntries hgs hk,
      ← find?_mergeEntries hgs hk, ← find?_mergeEntries hfgs hk, h]
  · intro h
    -- The keys agree anyway.
    refine mergeEntries_eq hefs hgs (keys_merge_assoc es fs gs) fun k hk => ?_
    rw [find?_mergeEntries hfs hk, find?_mergeEntries hfgs hk, find?_mergeEntries hgs hk]
    exact laidOver_assoc_iff.2 (h k hk)

/-- Wherever the middle value replaces a mapping of the first one by something else and the third
value has a mapping again, the third one takes nothing from the first one. -/
def Regroupable (a b c : Node) : Prop :=
  ∀ p : List Node, (∀ k ∈ p, k.WellKeyed) → ∀ es m gs,
    a.at? p = some (map es) → b.at? p = some m → m.isMap = false → c.at? p = some (map gs) →
    (map es).merge (map gs) = map gs

/-- Below or above anything but a mapping, nothing is lost by regrouping. -/
theorem regroupable_of_not_isMap {a b c : Node} (h : a.isMap = false ∨ c.isMap = false) :
    Regroupable a b c := by
  rintro (_ | ⟨k, p⟩) _ es m gs ha _ _ hc
  · rw [at?_nil, Option.some.injEq] at ha hc
    rw [ha, hc] at h
    rcases h with h | h <;> cases h
  · obtain ⟨as, _, rfl, _⟩ := at?_cons_eq_some ha
    obtain ⟨cs, _, rfl, _⟩ := at?_cons_eq_some hc
    rcases h with h | h <;> cases h

/-- Between two mappings, a value that is none hides the lower one only if it is merged first. -/
theorem regroupable_iff_of_not_isMap {es gs : Entries} {b : Node} (h : b.isMap = false) :
    Regroupable (map es) b (map gs) ↔ (map es).merge (map gs) = map gs := by
  constructor
  · intro hr
    exact hr [] (fun _ hk => absurd hk List.not_mem_nil) es b gs (at?_nil _) (at?_nil _) h
      (at?_nil _)
  · rintro heq (_ | ⟨k, p⟩) _ as m cs ha hb _ hc
    · rw [at?_nil, Option.some.injEq] at ha hc
      rw [← ha, ← hc]
      exact heq
    · rw [at?_cons_of_not_map h] at hb
      cases hb

/-- Mappings can be regrouped exactly if the values at each common key can. -/
theorem regroupable_map_iff {es fs gs : Entries} :
    Regroupable (map es) (map fs) (map gs) ↔ ∀ k : Node, k.WellKeyed → ∀ a b c,
      es.find? k = some a → fs.find? k = some b → gs.find? k = some c → Regroupable a b c := by
  constructor
  · intro h k hk a b c ha hb hc p hp as m cs hap hbp hm hcp
    refine h (k :: p) (List.forall_mem_cons.2 ⟨hk, hp⟩) as m cs ?_ ?_ hm ?_
    · rw [at?_cons_of_map, ha]; exact hap
    · rw [at?_cons_of_map, hb]; exact hbp
    · rw [at?_cons_of_map, hc]; exact hcp
  · rintro h (_ | ⟨k, p⟩) hp as m cs ha hb hm hc
    · rw [at?_nil, Option.some.injEq] at hb
      rw [← hb] at hm
      cases hm
    · rw [List.forall_mem_cons] at hp
      rw [at?_cons_of_map, Option.bind_eq_some_iff] at ha hb hc
      obtain ⟨a, hka, ha⟩ := ha
      obtain ⟨b, hkb, hb⟩ := hb
      obtain ⟨c, hkc, hc⟩ := hc
      exact h k hp.1 a b c hka hkb hkc p hp.2 as m cs ha hb hm hc

theorem mergeAssoc_of_not_isMap {a b c : Node} (h : a.isMap = false ∨ c.isMap = false) :
    MergeAssoc a b c := by
  rw [MergeAssoc]
  rcases h with h | h
  · rw [merge_eq_overlay (Or.inl h), merge_eq_overlay (Or.inl h)]
  · rw [merge_eq_overlay (Or.inr h), merge_eq_overlay (Or.inr h), merge_eq_overlay (Or.inr h)]

/-- Around a value that is no mapping, the groupings agree if the upper mapping absorbs the lower
one. -/
theorem mergeAssoc_iff_of_not_isMap {es gs : Entries} {b : Node} (h : b.isMap = false) :
    MergeAssoc (map es) b (map gs) ↔ (map es).merge (map gs) = map gs := by
  rw [MergeAssoc, merge_eq_overlay (Or.inr h), merge_eq_overlay (Or.inl h)]
  exact eq_comm

/-- **Associativity, by recursion.** The groupings agree exactly if the values can be regrouped. -/
theorem mergeAssoc_iff_regroupable {a b c : Node} (ha : a.WellKeyed) (hb : b.WellKeyed)
    (hc : c.WellKeyed) : MergeAssoc a b c ↔ Regroupable a b c := by
  induction hc generalizing a b with
  | @map gs distinct keys values _ ihv =>
    have hgs : (Node.map gs).WellKeyed := .map distinct keys values
    cases hamap : a.isMap with
    | false =>
      exact iff_of_true (mergeAssoc_of_not_isMap (Or.inl hamap))
        (regroupable_of_not_isMap (Or.inl hamap))
    | true =>
      obtain ⟨es, rfl⟩ := isMap_iff.1 hamap
      cases hbmap : b.isMap with
      | false => rw [mergeAssoc_iff_of_not_isMap hbmap, regroupable_iff_of_not_isMap hbmap]
      | true =>
        obtain ⟨fs, rfl⟩ := isMap_iff.1 hbmap
        rw [mergeEntries_assoc_iff ha hb hgs, regroupable_map_iff]
        -- Only the values at one key are left, where the induction hypothesis applies.
        have hstep : ∀ k a b c : Node, find? k es = some a → find? k fs = some b →
            find? k gs = some c → (MergeAssoc a b c ↔ Regroupable a b c) := by
          intro k a b c hka hkb hkc
          obtain ⟨l, hl, _⟩ := mem_of_find?_eq_some hkc
          exact ihv (l, c) hl (wellKeyed_of_find? ha hka) (wellKeyed_of_find? hb hkb)
        constructor
        · intro h k hk a b c hka hkb hkc
          exact (hstep k a b c hka hkb hkc).1 (h k hk a b c hka hkb hkc)
        · intro h k hk a b c hka hkb hkc
          exact (hstep k a b c hka hkb hkc).2 (h k hk a b c hka hkb hkc)
  | _ =>
    exact iff_of_true (mergeAssoc_of_not_isMap (Or.inr rfl)) (regroupable_of_not_isMap (Or.inr rfl))

/-- **When grouping does not matter.** Three values merge to the same from the left and from the
right, order of keys included, exactly when the third one stands alone over the first one at every
path where both hold a mapping and the middle one holds something else. A path leads through
mappings only, so all three hold mappings on the way. -/
theorem merge_assoc_iff {a b c : Node} (ha : a.WellKeyed) (hb : b.WellKeyed) (hc : c.WellKeyed) :
    (a.merge b).merge c = a.merge (b.merge c) ↔
      ∀ p : List Node, (∀ k ∈ p, k.WellKeyed) → ∀ es m gs,
        a.at? p = some (map es) → b.at? p = some m → m.isMap = false →
        c.at? p = some (map gs) → (map es).merge (map gs) = map gs :=
  mergeAssoc_iff_regroupable ha hb hc

/-- A number between two mappings at `x` makes a difference: from the right, the first one's `p`
comes back. -/
theorem merge_assoc_fails_of_replaced :
    ¬ ((map [(str "x", map [(str "p", int 1)])]).merge (map [(str "x", int 5)])).merge
        (map [(str "x", map [(str "q", int 3)])]) =
      (map [(str "x", map [(str "p", int 1)])]).merge
        ((map [(str "x", int 5)]).merge (map [(str "x", map [(str "q", int 3)])])) := by
  rw [merge_assoc_iff (by simp [keysDistinct]) (by simp [keysDistinct]) (by simp [keysDistinct])]
  intro h
  have hx := h [str "x"] (by simp) [(str "p", int 1)] (int 5) [(str "q", int 3)]
    (by simp [at?, find?_cons]) (by simp [at?, find?_cons]) rfl (by simp [at?, find?_cons])
  simp [mergeEntries, update, same] at hx

/-! ### The same value again -/

theorem foldl_addKey_self (ks : List Node) : ks.foldl addKey ks = ks := by
  have hknown : ∀ ls : List Node, (∀ l ∈ ls, l ∈ ks) → ls.foldl addKey ks = ks := by
    intro ls hls
    induction ls with
    | nil => rfl
    | cons l ls ih =>
      rw [List.forall_mem_cons] at hls
      have hl : ks.any l.same = true := List.any_eq_true.2 ⟨l, hls.1, same_refl l⟩
      rw [List.foldl_cons, addKey, if_pos hl]
      exact ih hls.2
  exact hknown ks fun _ hl => hl

/-- A value that is laid over itself is unchanged. -/
theorem merge_self {n : Node} (hn : n.WellKeyed) : n.merge n = n := by
  induction hn with
  | @map es distinct keys values _ ihv =>
    have hes : (map es).WellKeyed := .map distinct keys values
    have hkeys : Entries.keys (mergeEntries es es) = Entries.keys es := by
      rw [keys_mergeEntries, foldl_addKey_self]
    rw [merge_map, mergeEntries_eq hes hes hkeys]
    intro k _
    cases hfind : Entries.find? k es with
    | none => rfl
    | some v =>
      obtain ⟨l, hl, _⟩ := mem_of_find?_eq_some hfind
      rw [some_laidOver_some, ihv (l, v) hl]
  | _ => exact merge_eq_overlay (Or.inr rfl)

/-- **Beneath once is beneath for good.** A value that lies beneath another one already changes
nothing when it is laid beneath it again. -/
theorem merge_merge_self {a b : Node} (ha : a.WellKeyed) (hb : b.WellKeyed) :
    a.merge (a.merge b) = a.merge b := by
  -- Nothing is replaced between a value and itself.
  have hregroup : Regroupable a a b := by
    rintro p - es m gs hes hm hmap -
    rw [hes, Option.some.injEq] at hm
    rw [← hm] at hmap
    cases hmap
  have hassoc : MergeAssoc a a b := (mergeAssoc_iff_regroupable ha ha hb).2 hregroup
  rw [MergeAssoc, merge_self ha] at hassoc
  exact hassoc.symm

end Node

end Foundry.Yaml
