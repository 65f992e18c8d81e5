import Foundry.Proofs.Yaml.Shape

/-!
# Nulls that become empty mappings

A null may be given in the place of an empty mapping, but a merge tells them apart: an empty mapping
leaves what it is laid over, a null replaces it. `Emptied` relates a value to what it becomes when
nulls are made empty mappings, at certain paths. Merging keeps this relation, unless a null that is
made an empty mapping is laid over a mapping with entries, which it `Erases`.

* `emptied_entry`: how values get related.
* `Emptied.merge`: one merge.
* `Emptied.stacked`: a whole stack of values.
-/

namespace Foundry.Yaml

/-- Two mappings with the same keys, the same values elsewhere than at some names, and related
values there. -/
structure Entries.AgreeBut (R : Node → Node → Prop) (names : List String) (es fs : Entries) :
    Prop where
  keys : es.keys = fs.keys
  elsewhere : ∀ k : Node, k.WellKeyed → (∀ name ∈ names, k ≠ .str name) → es.find? k = fs.find? k
  there : ∀ name ∈ names, Option.Rel R (es.field? name) (fs.field? name)

namespace Entries

variable {R : Node → Node → Prop} {names : List String} {name : String} {es fs : Entries}

theorem AgreeBut.field? (h : AgreeBut R names es fs) (hname : name ∉ names) :
    es.field? name = fs.field? name := by
  refine h.elsewhere (.str name) (.str name) fun other hother heq => hname ?_
  rw [Node.str.inj heq]
  exact hother

theorem AgreeBut.hasField (h : AgreeBut R names es fs) (name : String) :
    es.hasField name = fs.hasField name := by
  rw [Entries.hasField, Entries.hasField]
  by_cases hname : name ∈ names
  · exact isSome_eq_of_rel (h.there name hname)
  · rw [h.field? hname]

/-- What is left out by its key is left out of both mappings. -/
theorem AgreeBut.filter (h : AgreeBut R names es fs) {P : Node → Bool}
    (hP : ∀ k l : Node, k.same l = true → P k = P l) :
    AgreeBut R names (es.filter fun e => P e.1) (fs.filter fun e => P e.1) where
  keys := by rw [keys_filter, keys_filter, h.keys]
  elsewhere k hk hne := by rw [find?_filter (hP k), find?_filter (hP k), h.elsewhere k hk hne]
  there name hname := by
    rw [Entries.field?, Entries.field?, find?_filter (hP _), find?_filter (hP _)]
    split
    · exact h.there name hname
    · exact .none

end Entries

namespace Node

/-- The tags around a value, from the outermost one on. -/
def tags : Node → List String
  | tagged tag n => tag :: n.tags
  | _ => []

/-- Nulls became empty mappings, at paths of one name from each list; tags on the way stay. -/
def Emptied : List (List String) → Node → Node → Prop
  | [], a, b => a = b ∨ a = null ∧ b = map []
  | names :: path, a, b =>
    a = b ∨ a.tags = b.tags ∧ ∃ es fs, a.entries? = some es ∧ b.entries? = some fs ∧
      Entries.AgreeBut (Emptied path) names es fs

/-- A null that becomes an empty mapping is laid over a mapping with entries. -/
def Erases (path : List (List String)) (base old new : Node) : Prop :=
  ∃ ks : List String, List.Forall₂ (fun k names => k ∈ names) ks path ∧
    old.at? (ks.map str) = some null ∧ new.at? (ks.map str) = some (map []) ∧
    ∃ e es, base.at? (ks.map str) = some (map (e :: es))

variable {a a' b b' : Node} {path : List (List String)} {names : List String}
  {es es' fs fs' : Entries}

@[simp]
theorem Emptied.refl (path : List (List String)) (n : Node) : Emptied path n n := by
  cases path <;> exact Or.inl rfl

theorem agreeBut_self {R : Node → Node → Prop} (hR : ∀ n, R n n) (names : List String)
    (es : Entries) : Entries.AgreeBut R names es es where
  keys := rfl
  elsewhere _ _ _ := rfl
  there name _ := rel_refl hR (es.field? name)

theorem isMap_eq (n : Node) : n.isMap = (n.tags.isEmpty && n.entries?.isSome) := by
  cases n <;> rfl

/-- Above the nulls, a mapping without a tag stays one. -/
theorem Emptied.isMap (h : Emptied (names :: path) a b) : a.isMap = b.isMap := by
  rcases h with rfl | ⟨htags, es, fs, hes, hfs, _⟩
  · rfl
  · rw [isMap_eq, isMap_eq, htags, hes, hfs]
    rfl

/-- The entries that are seen through tags agree but for some names. -/
theorem Emptied.entries? (h : Emptied (names :: path) a b) :
    Option.Rel (Entries.AgreeBut (Emptied path) names) a.entries? b.entries? := by
  rcases h with rfl | ⟨_, es, fs, hes, hfs, h⟩
  · exact rel_refl (agreeBut_self (Emptied.refl path) names) _
  · rw [hes, hfs]
    exact .some h

theorem Emptied.agreeBut (h : Emptied (names :: path) (map es) (map fs)) :
    Entries.AgreeBut (Emptied path) names es fs := by
  cases h.entries? with
  | some h => exact h

/-- One entry may change, under one of the names. -/
theorem emptied_entry {name : String} (hname : name ∈ names) (before after : Entries)
    (h : Emptied path a b) :
    Emptied (names :: path) (map (before ++ (str name, a) :: after))
      (map (before ++ (str name, b) :: after)) := by
  refine Or.inr ⟨rfl, _, _, rfl, rfl, ?_, fun k _ hne => ?_, fun other _ => ?_⟩
  · rw [Entries.keys, Entries.keys, List.map_append, List.map_append, List.map_cons, List.map_cons]
  · have hkey : k.same (str name) = false :=
      Bool.eq_false_iff.2 (mt same_right_str_iff.1 (hne name hname))
    rw [Entries.find?_append, Entries.find?_append, Entries.find?_cons, Entries.find?_cons, hkey]
    rfl
  · rw [Entries.field?, Entries.field?, Entries.find?_append, Entries.find?_append,
      Entries.find?_cons, Entries.find?_cons]
    refine or_rel (Emptied.refl path) _ ?_
    split
    · exact .some h
    · exact rel_refl (Emptied.refl path) _

/-! ### One merge -/

theorem mergeEntries_nil (es : Entries) : mergeEntries es [] = es := by
  rw [mergeEntries]

/-- At the end of the path: a null laid over what has no entries is as good as an empty mapping. -/
theorem Emptied.merge_leaf (ha : Emptied [] a a') (hb : Emptied [] b b') (wb : b.WellKeyed)
    (hspared : ¬ Erases [] a b b') : Emptied [] (a.merge b) (a'.merge b') := by
  have hbase : b = null → b' = map [] → ∀ e es, a ≠ map (e :: es) := by
    rintro rfl rfl e es rfl
    exact hspared ⟨[], .nil, rfl, rfl, e, es, rfl⟩
  -- The value on top is the same, or it is the null; and then what lies beneath has no entries.
  rcases hb with rfl | ⟨rfl, rfl⟩
  · rcases ha with rfl | ⟨rfl, rfl⟩
    · exact Emptied.refl [] _
    · rw [empty_merge wb, merge_eq_overlay (Or.inl rfl)]
      exact Emptied.refl [] b
  · refine Or.inr ⟨merge_eq_overlay (Or.inr rfl), ?_⟩
    cases hmap : a'.isMap with
    | false => exact merge_eq_overlay (Or.inl hmap)
    | true =>
      obtain ⟨es, rfl⟩ := isMap_iff.1 hmap
      rw [merge_map, mergeEntries_nil]
      rcases ha with rfl | ⟨_, hes⟩
      · cases es with
        | nil => rfl
        | cons e es => exact absurd rfl (hbase rfl rfl e es)
      · exact hes

theorem laidOver_rel {R : Node → Node → Prop} {x x' y y' : Option Node} (hx : Option.Rel R x x')
    (hy : Option.Rel R y y')
    (hmerge : ∀ o o' v v', x = some o → x' = some o' → y = some v → y' = some v' → R o o' →
      R v v' → R (o.merge v) (o'.merge v')) :
    Option.Rel R (laidOver x y) (laidOver x' y') := by
  cases hy with
  | none =>
    rw [laidOver_none, laidOver_none]
    exact hx
  | some hv =>
    cases hx with
    | none => exact .some hv
    | some ho => exact .some (hmerge _ _ _ _ rfl rfl rfl rfl ho hv)

/-- Merges of mappings agree but for the same names, if the merges of values there are related. -/
theorem agreeBut_mergeEntries {R : Node → Node → Prop} (hes : Entries.AgreeBut R names es es')
    (hfs : Entries.AgreeBut R names fs fs') (wfs : (map fs).WellKeyed) (wfs' : (map fs').WellKeyed)
    (hmerge : ∀ name ∈ names, ∀ o o' v v', es.field? name = some o → es'.field? name = some o' →
      fs.field? name = some v → fs'.field? name = some v' → R o o' → R v v' →
      R (o.merge v) (o'.merge v')) :
    Entries.AgreeBut R names (mergeEntries es fs) (mergeEntries es' fs') where
  keys := by rw [keys_mergeEntries, keys_mergeEntries, hes.keys, hfs.keys]
  elsewhere k hk hne := by
    rw [find?_mergeEntries wfs hk, find?_mergeEntries wfs' hk, hes.elsewhere k hk hne,
      hfs.elsewhere k hk hne]
  there name hname := by
    rw [Entries.field?, Entries.field?, find?_mergeEntries wfs (.str name),
      find?_mergeEntries wfs' (.str name)]
    exact laidOver_rel (hes.there name hname) (hfs.there name hname) (hmerge name hname)

/-- **A merge keeps nulls apart from the rest**, unless it erases something. -/
theorem Emptied.merge (ha : Emptied path a a') (hb : Emptied path b b') (wb : b.WellKeyed)
    (wb' : b'.WellKeyed) (hspared : ¬ Erases path a b b') :
    Emptied path (a.merge b) (a'.merge b') := by
  induction path generalizing a a' b b' with
  | nil => exact ha.merge_leaf hb wb hspared
  | cons names path ih =>
    by_cases hmaps : a.isMap = false ∨ b.isMap = false
    · have hmaps' := hmaps
      rw [ha.isMap, hb.isMap] at hmaps'
      rw [merge_eq_overlay hmaps, merge_eq_overlay hmaps']
      exact hb
    · rw [not_or, Bool.not_eq_false, Bool.not_eq_false] at hmaps
      obtain ⟨es, rfl⟩ := isMap_iff.1 hmaps.1
      obtain ⟨fs, rfl⟩ := isMap_iff.1 hmaps.2
      obtain ⟨es', rfl⟩ := isMap_iff.1 (ha.isMap.symm.trans hmaps.1)
      obtain ⟨fs', rfl⟩ := isMap_iff.1 (hb.isMap.symm.trans hmaps.2)
      rw [merge_map, merge_map]
      refine Or.inr ⟨rfl, _, _, rfl, rfl, agreeBut_mergeEntries ha.agreeBut hb.agreeBut wb wb' ?_⟩
      intro name hname o o' v v' ho _ hv hv' hoo hvv
      refine ih hoo hvv (Entries.wellKeyed_of_find? wb hv) (Entries.wellKeyed_of_find? wb' hv') ?_
      -- What would be erased at a value would be erased at the path through its name.
      rintro ⟨ks, hks, hold, hnew, e, es₀, hbase⟩
      refine hspared ⟨name :: ks, .cons hname hks, ?_, ?_, e, es₀, ?_⟩
      · rw [List.map_cons, at?_cons_of_map, ← Entries.field?, hv]
        exact hold
      · rw [List.map_cons, at?_cons_of_map, ← Entries.field?, hv']
        exact hnew
      · rw [List.map_cons, at?_cons_of_map, ← Entries.field?, ho]
        exact hbase

/-! ### Stacks -/

/-- No null that becomes an empty mapping is laid over a mapping with entries in a stack. -/
def Spared (path : List (List String)) (layers layers' : List Node) : Prop :=
  ∀ before layer after before' layer' after', layers = before ++ layer :: after →
    layers' = before' ++ layer' :: after' → before.length = before'.length →
    ¬ Erases path (stacked before) layer layer'

/-- Nothing is beneath the first value of a stack, so only the others can erase anything. -/
theorem spared_cons (a b : Node) (layers : List Node) :
    Spared (names :: path) (a :: layers) (b :: layers) := by
  rintro before layer after before' layer' after' h h' hlength ⟨ks, hks, hold, hnew, e, es, hbase⟩
  rcases before with _ | ⟨_, before⟩
  -- The first value is laid over the empty mapping.
  · obtain ⟨k, ks, _, _, rfl⟩ := List.forall₂_cons_right_iff.1 hks
    cases hbase
  · rcases before' with _ | ⟨_, before'⟩
    · cases hlength
    · rw [List.cons_append, List.cons.injEq] at h h'
      obtain ⟨_, hlayers⟩ := List.append_inj (h.2.symm.trans h'.2) (Nat.succ.inj hlength)
      rw [(List.cons.inj hlayers).1, hnew] at hold
      cases hold

/-- The induction for stacks: what lies beneath may differ by nulls already. -/
theorem emptied_stacked_append (before before' : List Node) {layers layers' : List Node}
    (hlength : before.length = before'.length)
    (hbefore : Emptied path (stacked before) (stacked before'))
    (h : List.Forall₂ (Emptied path) layers layers') (hwell : ∀ n ∈ layers, n.WellKeyed)
    (hwell' : ∀ n ∈ layers', n.WellKeyed)
    (hspared : Spared path (before ++ layers) (before' ++ layers')) :
    Emptied path (stacked (before ++ layers)) (stacked (before' ++ layers')) := by
  induction h generalizing before before' with
  | nil =>
    rw [List.append_nil, List.append_nil]
    exact hbefore
  | @cons layer layer' layers layers' hlayer _ ih =>
    rw [List.forall_mem_cons] at hwell hwell'
    have hnext : Emptied path (stacked (before ++ [layer])) (stacked (before' ++ [layer'])) := by
      rw [stacked_append_singleton, stacked_append_singleton]
      exact hbefore.merge hlayer hwell.1 hwell'.1 (hspared _ _ _ _ _ _ rfl rfl hlength)
    rw [List.append_cons, List.append_cons before'] at hspared ⊢
    exact ih _ _ (by simp [hlength]) hnext hwell.2 hwell'.2 hspared

/-- **A stack keeps nulls apart from the rest**, unless it erases something. -/
theorem Emptied.stacked {layers layers' : List Node}
    (h : List.Forall₂ (Emptied path) layers layers') (hwell : ∀ n ∈ layers, n.WellKeyed)
    (hwell' : ∀ n ∈ layers', n.WellKeyed) (hspared : Spared path layers layers') :
    Emptied path (Node.stacked layers) (Node.stacked layers') :=
  emptied_stacked_append [] [] rfl (Emptied.refl path _) h hwell hwell' hspared

end Node

end Foundry.Yaml
