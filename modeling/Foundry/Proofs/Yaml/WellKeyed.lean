import Foundry.Proofs.Related
import Foundry.Yaml.Node.Reader

/-!
# Values without repeated keys

`Node.WellKeyed` says that no mapping in a value repeats a key, at any depth and inside keys too.
Among such values `Node.same` is an equivalence, so a key may stand for any other that is the same:

* `same_seq_iff`, `same_map_iff` and so on: what a value is the same as.
* `same_refl`, `same_trans`: of all values.
* `same_symm`: of a value without repeated keys. Two mappings are compared in one direction only
  and by their sizes; since no two entries of the first can meet one entry of the second, every
  entry of the second is met (`exists_related_of_length_le`).
-/

namespace Foundry.Decimal.Binary64

/-- Floating-point numbers that are the same as one are the same; a zero has two signs. -/
theorem same_trans {x y z : Binary64} (hxy : x.same y = true) (hyz : y.same z = true) :
    x.same z = true := by
  cases x with
  | nan =>
    cases y with
    | nan => exact hyz
    | _ => simp [same] at hxy
  | infinity s =>
    cases y with
    | infinity t =>
      rw [same, beq_iff_eq] at hxy
      rw [hxy]
      exact hyz
    | _ => simp [same] at hxy
  | finite s m e _ =>
    cases y with
    | finite t n f _ =>
      cases z with
      | finite u o g _ =>
        simp only [same, Bool.and_eq_true, Bool.or_eq_true, beq_iff_eq] at hxy hyz ⊢
        obtain ⟨⟨rfl, rfl⟩, hs⟩ := hxy
        obtain ⟨⟨rfl, rfl⟩, ht⟩ := hyz
        refine ⟨⟨rfl, rfl⟩, ?_⟩
        rcases hs with rfl | hm
        · exact ht
        · exact Or.inr hm
      | _ => simp [same] at hyz
    | _ => simp [same] at hxy

end Foundry.Decimal.Binary64

namespace Foundry.Yaml

/-- Keys are distinct when no key is the same as one behind it. -/
theorem Entries.keysDistinct_iff {es : Entries} :
    es.keysDistinct = true ↔ es.Pairwise fun e f => e.1.same f.1 = false := by
  induction es with
  | nil => simp [Entries.keysDistinct]
  | cons e es ih =>
    obtain ⟨k, v⟩ := e
    rw [Entries.keysDistinct, Bool.and_eq_true, ih, List.pairwise_cons]
    simp only [List.all_eq_true, Bool.not_eq_eq_eq_not, Bool.not_true]

namespace Node

/-- No mapping in the value repeats a key. -/
inductive WellKeyed : Node → Prop
  | null : WellKeyed .null
  | bool (b : Bool) : WellKeyed (.bool b)
  | int (i : Int) : WellKeyed (.int i)
  | float (x : Decimal.Binary64) : WellKeyed (.float x)
  | str (s : String) : WellKeyed (.str s)
  | seq {items : List Node} (each : ∀ n ∈ items, WellKeyed n) : WellKeyed (.seq items)
  | map {es : Entries} (distinct : es.keysDistinct = true) (keys : ∀ e ∈ es, WellKeyed e.1)
      (values : ∀ e ∈ es, WellKeyed e.2) : WellKeyed (.map es)
  | tagged (tag : String) {n : Node} (node : WellKeyed n) : WellKeyed (.tagged tag n)

attribute [simp] WellKeyed.null WellKeyed.bool WellKeyed.int WellKeyed.float WellKeyed.str

/-- A mapping repeats no key if its keys are distinct and nothing in it repeats one. -/
@[simp]
theorem wellKeyed_map_iff {es : Entries} : (map es).WellKeyed ↔
    es.keysDistinct = true ∧ ∀ e ∈ es, e.1.WellKeyed ∧ e.2.WellKeyed := by
  constructor
  · rintro (_ | _ | _ | _ | _ | _ | ⟨distinct, keys, values⟩ | _)
    exact ⟨distinct, fun e he => ⟨keys e he, values e he⟩⟩
  · rintro ⟨distinct, h⟩
    exact .map distinct (fun e he => (h e he).1) fun e he => (h e he).2

/-- The value behind tags repeats no key either. -/
theorem WellKeyed.bare {n : Node} (h : n.WellKeyed) : n.bare.WellKeyed := by
  induction h with
  | tagged tag _ ih => exact ih
  | map distinct keys values => exact .map distinct keys values
  | seq each => exact .seq each
  | _ => constructor

/-- The mapping that is seen through tags repeats no key. -/
theorem WellKeyed.of_entries? {n : Node} {es : Entries} (h : n.WellKeyed)
    (hes : n.entries? = some es) : (Node.map es).WellKeyed := by
  have hbare := h.bare
  unfold entries? at hes
  split at hes
  · rename_i fs hfs
    rw [hfs, Option.some.inj hes] at hbare
    exact hbare
  · cases hes

/-- Induction over values: a collection holds if everything in it does. -/
@[elab_as_elim]
theorem induction {motive : Node → Prop} (null : motive .null) (bool : ∀ b, motive (.bool b))
    (int : ∀ i, motive (.int i)) (float : ∀ x, motive (.float x)) (str : ∀ s, motive (.str s))
    (seq : ∀ items, (∀ n ∈ items, motive n) → motive (.seq items))
    (map : ∀ es : Entries, (∀ e ∈ es, motive e.1) → (∀ e ∈ es, motive e.2) → motive (.map es))
    (tagged : ∀ tag n, motive n → motive (.tagged tag n)) (n : Node) : motive n :=
  Node.rec (motive_1 := motive) (motive_2 := fun items => ∀ n ∈ items, motive n)
    (motive_3 := fun es => ∀ e ∈ es, motive e.1 ∧ motive e.2)
    (motive_4 := fun e => motive e.1 ∧ motive e.2)
    null bool int float str (fun items h => seq items h)
    (fun es h => map es (fun e he => (h e he).1) fun e he => (h e he).2)
    (fun tag n h => tagged tag n h) (fun _ h => absurd h List.not_mem_nil)
    (fun _ _ hn hs => List.forall_mem_cons.2 ⟨hn, hs⟩) (fun _ h => absurd h List.not_mem_nil)
    (fun _ _ he hs => List.forall_mem_cons.2 ⟨he, hs⟩) (fun _ _ hk hv => ⟨hk, hv⟩) n

/-! ### What is the same as what -/

/-- Sequences are the same item by item. -/
theorem sameItems_iff {xs ys : List Node} :
    sameItems xs ys = true ↔ List.Forall₂ (fun x y => x.same y = true) xs ys := by
  induction xs generalizing ys with
  | nil => cases ys <;> simp [sameItems]
  | cons x xs ih => cases ys <;> simp [sameItems, ih]

/-- Mappings are the same if each entry of one meets an entry of the other; the order does not
matter. -/
theorem sameEntries_iff {es fs : Entries} :
    sameEntries es fs = true ↔
      ∀ e ∈ es, ∃ f ∈ fs, e.1.same f.1 = true ∧ e.2.same f.2 = true := by
  induction es with
  | nil => simp [sameEntries]
  | cons e es ih =>
    obtain ⟨k, v⟩ := e
    simp only [sameEntries, Bool.and_eq_true, List.any_eq_true, ih, List.forall_mem_cons]

section Same

variable {n : Node}

theorem same_right_str_iff {s : String} : n.same (str s) = true ↔ n = str s := by
  cases n <;> simp [same]

theorem same_null_iff : null.same n = true ↔ n = null := by
  cases n with
  | null => simp only [same]
  | _ => simp [same]

theorem same_bool_iff {b : Bool} : (bool b).same n = true ↔ n = bool b := by
  cases n with
  | bool c => simp only [same, beq_iff_eq, bool.injEq]; exact eq_comm
  | _ => simp [same]

theorem same_int_iff {i : Int} : (int i).same n = true ↔ n = int i := by
  cases n with
  | int j => simp only [same, beq_iff_eq, int.injEq]; exact eq_comm
  | _ => simp [same]

theorem same_float_iff {x : Decimal.Binary64} :
    (float x).same n = true ↔ ∃ y, n = float y ∧ x.same y = true := by
  cases n <;> simp [same]

theorem same_seq_iff {xs : List Node} : (seq xs).same n = true ↔
    ∃ ys, n = seq ys ∧ List.Forall₂ (fun x y => x.same y = true) xs ys := by
  cases n <;> simp [same, sameItems_iff]

theorem same_map_iff {es : Entries} : (map es).same n = true ↔
    ∃ fs, n = map fs ∧ es.length = fs.length ∧
      ∀ e ∈ es, ∃ f ∈ fs, e.1.same f.1 = true ∧ e.2.same f.2 = true := by
  cases n with
  | map fs => simp only [same, Bool.and_eq_true, beq_iff_eq, sameEntries_iff, map.injEq,
      exists_eq_left']
  | _ => simp [same]

theorem same_tagged_iff {tag : String} {x : Node} : (tagged tag x).same n = true ↔
    ∃ y, n = tagged tag y ∧ x.same y = true := by
  cases n with
  | tagged tag' y =>
    rw [same, Bool.and_eq_true, beq_iff_eq]
    constructor
    · rintro ⟨rfl, h⟩
      exact ⟨y, rfl, h⟩
    · rintro ⟨z, hz, h⟩
      rw [tagged.injEq] at hz
      rw [hz.2]
      exact ⟨hz.1.symm, h⟩
  | _ => simp [same]

end Same

/-- Values that are the same have one text, if they have any. -/
theorem string?_of_same {k l : Node} (h : k.same l = true) : k.string? = l.string? := by
  induction k using Node.induction generalizing l with
  | null => rw [same_null_iff.1 h]
  | bool b => rw [same_bool_iff.1 h]
  | int i => rw [same_int_iff.1 h]
  | str s => rw [same_str_iff.1 h]
  | float x =>
    obtain ⟨y, rfl, _⟩ := same_float_iff.1 h
    rfl
  | seq items =>
    obtain ⟨_, rfl, _⟩ := same_seq_iff.1 h
    rfl
  | map es =>
    obtain ⟨_, rfl, _⟩ := same_map_iff.1 h
    rfl
  | tagged tag n ih =>
    obtain ⟨m, rfl, hnm⟩ := same_tagged_iff.1 h
    show n.string? = m.string?
    exact ih hnm

/-! ### An equivalence -/

@[simp]
theorem same_refl (n : Node) : n.same n = true := by
  induction n using Node.induction with
  | null => exact same_null_iff.2 rfl
  | bool b => exact same_bool_iff.2 rfl
  | int i => exact same_int_iff.2 rfl
  | float x => exact same_float_iff.2 ⟨x, rfl, x.same_self⟩
  | str s => exact same_str_iff.2 rfl
  | seq items ih => exact same_seq_iff.2 ⟨items, rfl, List.forall₂_same.2 ih⟩
  | map es ihk ihv =>
    exact same_map_iff.2 ⟨es, rfl, rfl, fun e he => ⟨e, he, ihk e he, ihv e he⟩⟩
  | tagged tag n ih => exact same_tagged_iff.2 ⟨n, rfl, ih⟩

theorem same_trans {x y z : Node} (hxy : x.same y = true) (hyz : y.same z = true) :
    x.same z = true := by
  induction x using Node.induction generalizing y z with
  | null =>
    rw [same_null_iff.1 hxy] at hyz
    exact hyz
  | bool b =>
    rw [same_bool_iff.1 hxy] at hyz
    exact hyz
  | int i =>
    rw [same_int_iff.1 hxy] at hyz
    exact hyz
  | float a =>
    obtain ⟨b, rfl, hab⟩ := same_float_iff.1 hxy
    obtain ⟨c, rfl, hbc⟩ := same_float_iff.1 hyz
    exact same_float_iff.2 ⟨c, rfl, Decimal.Binary64.same_trans hab hbc⟩
  | str s =>
    rw [same_str_iff.1 hxy] at hyz
    exact hyz
  | seq xs ih =>
    obtain ⟨ys, rfl, hxs⟩ := same_seq_iff.1 hxy
    obtain ⟨zs, rfl, hys⟩ := same_seq_iff.1 hyz
    have hxz := forall₂_comp_of_mem hxs hys fun x hx _ _ _ => ih x hx
    exact same_seq_iff.2 ⟨zs, rfl, hxz⟩
  | map es ihk ihv =>
    obtain ⟨fs, rfl, hes, hmeet⟩ := same_map_iff.1 hxy
    obtain ⟨gs, rfl, hfs, hmeet'⟩ := same_map_iff.1 hyz
    refine same_map_iff.2 ⟨gs, rfl, hes.trans hfs, fun e he => ?_⟩
    obtain ⟨f, hf, hkf, hvf⟩ := hmeet e he
    obtain ⟨g, hg, hkg, hvg⟩ := hmeet' f hf
    exact ⟨g, hg, ihk e he hkf hkg, ihv e he hvf hvg⟩
  | tagged tag n ih =>
    obtain ⟨m, rfl, hnm⟩ := same_tagged_iff.1 hxy
    obtain ⟨l, rfl, hml⟩ := same_tagged_iff.1 hyz
    exact same_tagged_iff.2 ⟨l, rfl, ih hnm hml⟩

/-- Sameness is symmetric where no mapping repeats a key. -/
theorem same_symm {x y : Node} (hx : x.WellKeyed) (hxy : x.same y = true) : y.same x = true := by
  induction hx generalizing y with
  | null =>
    rw [same_null_iff.1 hxy]
    exact same_refl null
  | bool b =>
    rw [same_bool_iff.1 hxy]
    exact same_refl (bool b)
  | int i =>
    rw [same_int_iff.1 hxy]
    exact same_refl (int i)
  | float a =>
    obtain ⟨b, rfl, hab⟩ := same_float_iff.1 hxy
    rw [Decimal.Binary64.same_comm] at hab
    exact same_float_iff.2 ⟨a, rfl, hab⟩
  | str s =>
    rw [same_str_iff.1 hxy]
    exact same_refl (str s)
  | seq _ ih =>
    obtain ⟨ys, rfl, hxs⟩ := same_seq_iff.1 hxy
    have hys := (forall₂_imp_of_mem hxs fun x hx _ _ => ih x hx).flip
    exact same_seq_iff.2 ⟨_, rfl, hys⟩
  | @map es hdist _ _ ihk ihv =>
    obtain ⟨fs, rfl, hlen, hmeet⟩ := same_map_iff.1 hxy
    -- Two entries that met the same entry of `fs` would have the same key.
    have hone : es.Pairwise fun e e' => ∀ f : Node × Node,
        ¬((e.1.same f.1 = true ∧ e.2.same f.2 = true) ∧
          e'.1.same f.1 = true ∧ e'.2.same f.2 = true) := by
      rw [Entries.keysDistinct_iff] at hdist
      refine hdist.imp_of_mem fun {e e'} _ he' hne f hboth => ?_
      rw [same_trans hboth.1.1 (ihk e' he' hboth.2.1)] at hne
      exact absurd hne (by decide)
    refine same_map_iff.2 ⟨es, rfl, hlen.symm, fun f hf => ?_⟩
    -- There are as many entries on both sides, so every entry of `fs` is met.
    obtain ⟨e, he, hk, hv⟩ := exists_related_of_length_le (Nat.le_of_eq hlen.symm) hone hmeet f hf
    exact ⟨e, he, ihk e he hk, ihv e he hv⟩
  | tagged tag _ ih =>
    obtain ⟨m, rfl, hnm⟩ := same_tagged_iff.1 hxy
    exact same_tagged_iff.2 ⟨_, rfl, ih hnm⟩

/-- A key may stand for another one that is the same. -/
theorem same_congr {k l : Node} (hk : k.WellKeyed) (h : k.same l = true) (n : Node) :
    k.same n = l.same n := by
  rw [Bool.eq_iff_iff]
  constructor
  · intro hn
    exact same_trans (same_symm hk h) hn
  · intro hn
    exact same_trans h hn

/-- A key may stand for another one that is the same, on the other side as well. -/
theorem same_congr_right {k l : Node} (hk : k.WellKeyed) (h : k.same l = true) (n : Node) :
    n.same k = n.same l := by
  rw [Bool.eq_iff_iff]
  constructor
  · intro hn
    exact same_trans hn h
  · intro hn
    exact same_trans hn (same_symm hk h)

theorem same_comm {k l : Node} (hk : k.WellKeyed) (hl : l.WellKeyed) : k.same l = l.same k := by
  rw [Bool.eq_iff_iff]
  exact ⟨same_symm hk, same_symm hl⟩

end Node

end Foundry.Yaml
