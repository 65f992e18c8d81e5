import Foundry.Proofs.Decimal.Integer
import Foundry.Proofs.Parameter.TypeName
import Foundry.Proofs.Result
import Foundry.Proofs.Yaml.Reading

/-!
# Tags around values of parameters

Types look through tags: `Node.untagged` takes all of them away and most conversions do not change.
What a type looks at is the value without the tags around it, and of a collection only that it is
one (`Shallow`). There is one exception. An integer stays one where a floating-point number is asked
for, but an integer with a tag becomes a floating-point number, and is written with a point.

Two conversions of a vector are compared item by item (`compared_mapM`). That items differ shows in
the whole literal, since it has more points and exponents then (`marks`).

* `shallow_literal`: the scalar types that no tag is hidden from.
* `compared_converter`: what becomes of a value with and without its tags.
* `convert_untagged_iff`: exactly which tags make a difference.
-/

namespace Foundry.Yaml.Node

mutual

/-- The value without any tags, at whatever depth. -/
def untagged : Node → Node
  | seq items => seq (untaggedItems items)
  | map es => map (untaggedEntries es)
  | tagged _ n => n.untagged
  | n => n

/-- Items without any tags. -/
def untaggedItems : List Node → List Node
  | [] => []
  | n :: ns => n.untagged :: untaggedItems ns

/-- Entries without any tags, on keys or values. -/
def untaggedEntries : List (Node × Node) → List (Node × Node)
  | [] => []
  | (k, v) :: es => (k.untagged, v.untagged) :: untaggedEntries es

end

variable {γ δ : Type} {f : Node → γ} {n : Node} {i : Int}

theorem untaggedItems_eq (items : List Node) : untaggedItems items = items.map untagged := by
  induction items with
  | nil => rw [untaggedItems, List.map_nil]
  | cons n ns ih => rw [untaggedItems, ih, List.map_cons]

theorem untagged_bare (n : Node) : n.bare.untagged = n.untagged := by
  induction n using bare.induct with
  | case1 tag n ih => rw [bare, ih, untagged]
  | case2 n h => cases n <;> first | rfl | exact absurd rfl (h _ _)

theorem describe_bare (n : Node) : n.bare.describe = n.describe := by
  rw [describe, describe, bare_bare]

theorem InWords.of_bare (hn : n.InWords) (hi : n.bare = .int i) : InWord i := by
  induction hn with
  | int h =>
    obtain rfl := Node.int.inj hi
    exact h
  | tagged tag _ ih => exact ih hi
  | _ => cases hi

theorem InWords.of_bare_seq {items : List Node} (hn : n.InWords) (h : n.bare = .seq items) :
    ∀ item ∈ items, item.InWords := by
  induction hn with
  | seq each =>
    obtain rfl := Node.seq.inj h
    exact each
  | tagged tag _ ih => exact ih h
  | _ => cases h

/-! ### Looking through tags -/

/-- A function that looks through the tags around a value, and not into a collection. -/
structure Shallow (f : Node → γ) : Prop where
  bare : ∀ n, f n.bare = f n
  seq : ∀ xs ys, f (seq xs) = f (seq ys)
  map : ∀ es fs, f (map es) = f (map fs)

/-- What looks through the tags around a value does not see the tags inside it either. -/
theorem Shallow.untagged (hf : Shallow f) (n : Node) : f n.untagged = f n := by
  rw [← hf.bare n, ← untagged_bare]
  cases hn : n.bare with
  | seq items =>
    rw [Node.untagged]
    exact hf.seq _ _
  | map es =>
    rw [Node.untagged]
    exact hf.map _ _
  | tagged tag m => exact absurd hn (bare_ne_tagged n tag m)
  | _ => rfl

theorem Shallow.comp (hf : Shallow f) (g : γ → δ) : Shallow fun n => g (f n) where
  bare n := congrArg g (hf.bare n)
  seq xs ys := congrArg g (hf.seq xs ys)
  map es fs := congrArg g (hf.map es fs)

theorem shallow_describe : Shallow describe where
  bare := describe_bare
  seq _ _ := rfl
  map _ _ := rfl

end Foundry.Yaml.Node

namespace Foundry.Parameter

open Decimal Yaml

/-! ### Scalar types -/

theorem shallow_read (t : IntegerType) : Node.Shallow t.read where
  bare n := by simp only [IntegerType.read, IntegerType.check, Node.bare_bare, Node.describe_bare]
  seq _ _ := rfl
  map _ _ := rfl

/-- Floating-point numbers are read through tags; it is their literals that are not. -/
theorem shallow_readFloat (target : String) : Node.Shallow (readFloat target) where
  bare n := by simp only [readFloat, Node.bare_bare, Node.describe_bare]
  seq _ _ := rfl
  map _ _ := rfl

theorem shallow_readBoolean : Node.Shallow readBoolean where
  bare n := by simp only [readBoolean, Node.bare_bare, Node.describe_bare]
  seq _ _ := rfl
  map _ _ := rfl

theorem shallow_readTime : Node.Shallow readTime where
  bare n := by simp only [readTime, Node.bare_bare, Node.describe_bare]
  seq _ _ := rfl
  map _ _ := rfl

theorem shallow_stringLiteral : Node.Shallow Scalar.stringLiteral where
  bare n := by simp only [Scalar.stringLiteral, Node.bare_bare, Node.describe_bare]
  seq _ _ := rfl
  map _ _ := rfl

theorem shallow_timeLiteral : Node.Shallow Scalar.timeLiteral where
  bare n := by simp only [Scalar.timeLiteral, shallow_readTime.bare, Node.describe_bare]
  seq _ _ := rfl
  map _ _ := rfl

/-- A type whose literals are floating-point numbers. -/
def Scalar.IsFloating (s : Scalar) : Prop :=
  s = .double ∨ s = .float

/-- The literals of all other types look through tags. -/
theorem shallow_literal {s : Scalar} (h : ¬ s.IsFloating) : Node.Shallow s.literal := by
  cases s with
  | string => exact shallow_stringLiteral
  | integer t => exact (shallow_read t).comp fun result => result.map toString
  | double => exact absurd (Or.inl rfl) h
  | float => exact absurd (Or.inr rfl) h
  | boolean =>
    exact shallow_readBoolean.comp fun result => result.map fun b => if b then "true" else "false"
  | time => exact shallow_timeLiteral

/-! ### Two conversions side by side -/

/-- Two results: the same refusal, or values of which the first one weighs more where `p` holds, and
which are the same elsewhere. -/
inductive Compared {ε α : Type} (weight : α → Nat) (p : Prop) : Except ε α → Except ε α → Prop
  | error (e : ε) : Compared weight p (.error e) (.error e)
  | same (hp : ¬ p) (a : α) : Compared weight p (.ok a) (.ok a)
  | heavier (hp : p) {a b : α} (h : weight b < weight a) : Compared weight p (.ok a) (.ok b)

/-- The weight of a list. -/
def totalWeight {α : Type} (weight : α → Nat) (as : List α) : Nat :=
  (as.map weight).sum

section Compared

variable {ε α β γ : Type} {weight : α → Nat} {p ps : Prop} {x y : Except ε α}
  {xs ys : Except ε (List α)}

/-- Equal results may be compared where `p` does not hold. -/
theorem Compared.of_eq (hp : ¬ p) (h : x = y) : Compared weight p x y := by
  rw [h]
  cases y with
  | error e => exact .error e
  | ok a => exact .same hp a

/-- Compared results differ exactly if `p` holds and they are values. -/
theorem Compared.eq_iff (h : Compared weight p x y) : x = y ↔ (p → ∃ e, y = .error e) := by
  cases h with
  | error e => exact iff_of_true rfl fun _ => ⟨e, rfl⟩
  | same hp a => exact iff_of_true rfl fun h => absurd h hp
  -- Values of different weight are different.
  | heavier hp hlt =>
    refine iff_of_false ?_ ?_
    · intro h
      rw [Except.ok.inj h] at hlt
      exact Nat.lt_irrefl _ hlt
    · intro h
      obtain ⟨e, he⟩ := h hp
      cases he

/-- What is made of two results is compared as they are, if it grows with the weight. -/
theorem Compared.map {weight' : β → Nat} {f : α → β} (h : Compared weight p x y)
    (hf : ∀ a b, weight b < weight a → weight' (f b) < weight' (f a)) :
    Compared weight' p (x.map f) (y.map f) := by
  cases h with
  | error e => exact .error e
  | same hp a => exact .same hp (f a)
  | heavier hp hlt => exact .heavier hp (hf _ _ hlt)

/-- Results of an item and of a list are compared together: one difference is enough. -/
theorem Compared.cons (h : Compared weight p x y) (hs : Compared (totalWeight weight) ps xs ys) :
    Compared (totalWeight weight) (p ∨ ps) (do pure ((← x) :: (← xs)))
      (do pure ((← y) :: (← ys))) := by
  cases h with
  | error e => exact .error e
  | same hp a =>
    cases hs with
    | error e => exact .error e
    | same hps as => exact .same (not_or.2 ⟨hp, hps⟩) (a :: as)
    | heavier hps hlt => exact .heavier (Or.inr hps) (Nat.add_lt_add_left hlt _)
  | heavier hp hlt =>
    cases hs with
    | error e => exact .error e
    | same hps as => exact .heavier (Or.inl hp) (Nat.add_lt_add_right hlt _)
    | heavier hps hlts => exact .heavier (Or.inl hp) (Nat.add_lt_add hlt hlts)

/-- Lists are compared item by item. -/
theorem compared_mapM {f g : γ → Except ε α} {p : γ → Prop} {items : List γ}
    (h : ∀ item ∈ items, Compared weight (p item) (f item) (g item)) :
    Compared (totalWeight weight) (∃ item ∈ items, p item) (items.mapM f) (items.mapM g) := by
  induction items with
  | nil => exact .same (by simp) []
  | cons item items ih =>
    rw [List.forall_mem_cons] at h
    rw [List.mapM_cons, List.mapM_cons, List.exists_mem_cons_iff]
    exact h.1.cons (ih h.2)

end Compared

/-! ### Tags that matter -/

variable {n : Node} {s : Scalar} {i : Int}

/-- A tag hides an integer that is to be a floating-point number: the value itself, or an item where
vectors are asked for. -/
def HidesInteger : DeclaredType → Node → Prop
  | .scalar s, n => s.IsFloating ∧ ∃ tag m i, n = .tagged tag m ∧ m.bare = .int i
  | .vector element, n => ∃ items, n.bare = .seq items ∧ ∃ item ∈ items, HidesInteger element item

/-- Whatever is not an integer without a tag is read as a floating-point number and spelled so. -/
theorem floatLiteral_eq (target : String) (h : ∀ i, n ≠ .int i) :
    Scalar.floatLiteral target n = (readFloat target n).map Spelling.literal.spell := by
  cases n with
  | int i => exact absurd rfl (h i)
  | _ => rfl

theorem isFinite_of_inWord (hi : InWord i) : (Binary64.ofInt i).isFinite = true := by
  rw [InWord] at hi
  exact Binary64.isFinite_ofInt (by omega)

/-- An integer of 64 bits is read as the number nearest to it. -/
theorem readFloat_of_int (target : String) (hi : n.bare = .int i) (hword : InWord i) :
    readFloat target n = .ok (Binary64.ofInt i) := by
  rw [readFloat, hi]
  exact if_pos (isFinite_of_inWord hword)

theorem untagged_of_bare_int (hi : n.bare = .int i) : n.untagged = .int i := by
  rw [← Node.untagged_bare, hi]
  rfl

theorem untagged_ne_int (h : ∀ i, n.bare ≠ .int i) (i : Int) : n.untagged ≠ .int i := by
  rw [← Node.untagged_bare]
  cases hn : n.bare with
  | int j => exact absurd hn (h j)
  | tagged tag m => exact absurd hn (Node.bare_ne_tagged n tag m)
  | _ => exact nofun

/-- A floating-point literal depends on the tag around an integer, and on no other one. -/
theorem compared_floatLiteral (target : String) (hn : n.InWords) :
    Compared marks (∃ tag m i, n = .tagged tag m ∧ m.bare = .int i)
      (Scalar.floatLiteral target n) (Scalar.floatLiteral target n.untagged) := by
  by_cases hbare : ∃ i, n.bare = .int i
  · obtain ⟨i, hi⟩ := hbare
    have hword := hn.of_bare hi
    rw [untagged_of_bare_int hi]
    cases n with
    -- The tag leads to a floating-point literal, with a mark that no integer has.
    | tagged tag m =>
      have htagged : ∀ j, Node.tagged tag m ≠ .int j := fun _ h => by cases h
      rw [floatLiteral_eq target htagged, readFloat_of_int target hi hword]
      refine .heavier ⟨tag, m, i, rfl, hi⟩ ?_
      rw [marks_int]
      exact marks_spell_pos _ (isFinite_of_inWord hword)
    | int j =>
      obtain rfl := Node.int.inj hi
      exact .of_eq (by simp) rfl
    | _ => cases hi
  · rw [not_exists] at hbare
    refine .of_eq ?_ ?_
    · rintro ⟨tag, m, i, rfl, hi⟩
      exact hbare i hi
    · have hne : ∀ i, n ≠ .int i := by
        rintro i rfl
        exact hbare i rfl
      rw [floatLiteral_eq target hne, floatLiteral_eq target (untagged_ne_int hbare),
        (shallow_readFloat target).untagged]

/-- **Scalars with their tags and without them.** Only a floating-point literal tells the
difference. -/
theorem compared_literal (s : Scalar) (hn : n.InWords) :
    Compared marks (HidesInteger (.scalar s) n) (s.literal n) (s.literal n.untagged) := by
  by_cases hs : s.IsFloating
  · rw [HidesInteger, eq_true hs, true_and]
    rcases hs with rfl | rfl
    · exact compared_floatLiteral "double" hn
    · exact compared_floatLiteral "float" hn
  · refine .of_eq ?_ ((shallow_literal hs).untagged n).symm
    rw [HidesInteger]
    exact fun h => hs h.1

/-! ### Vectors -/

/-- A separator has no marks, so those of the items add up. -/
theorem marks_intercalate (texts : List String) :
    marks (", ".intercalate texts) = totalWeight marks texts := by
  rw [marks, String.toList_intercalate, totalWeight]
  induction texts with
  | nil => rfl
  | cons a texts ih =>
    cases texts with
    | nil => simp [marks]
    | cons b texts =>
      rw [List.map_cons, List.map_cons, List.intercalate_cons_cons, List.countP_append,
        List.countP_append, ← List.map_cons, ih, List.map_cons, List.sum_cons]
      rfl

/-- The literal of a vector with items, from those of its items. -/
def braced (elements : List String) : String :=
  "\x7b" ++ ", ".intercalate elements ++ "\x7d"

theorem marks_braced (elements : List String) :
    marks (braced elements) = totalWeight marks elements := by
  have hopen : marks "\x7b" = 0 := by decide
  have hclose : marks "\x7d" = 0 := by decide
  rw [braced, marks_append, marks_append, marks_intercalate, hopen, hclose, Nat.zero_add,
    Nat.add_zero]

variable {c : Converter} {items : List Node}

/-- A vector with items is written with braces around the literals of its items. -/
theorem convert_vector_of_seq (c : Converter) (h : n.bare = .seq items) (hne : items ≠ []) :
    c.vector.convert n = (items.mapM c.convert).map braced := by
  cases items with
  | nil => exact absurd rfl hne
  | cons item items =>
    rw [Converter.vector]
    simp only [h]
    rfl

theorem convert_vector_of_empty (c : Converter) (h : n.bare = .seq []) :
    c.vector.convert n = .ok "\x7b \x7d" := by
  rw [Converter.vector]
  simp only [h]

theorem convert_vector_of_not_seq (c : Converter) (h : ∀ items, n.bare ≠ .seq items) :
    c.vector.convert n = .error (.notAVector n.describe c.vector.name) := by
  rw [Converter.vector]
  cases hn : n.bare with
  | seq items => exact absurd hn (h items)
  | _ => simp only [hn]

theorem untagged_of_bare_seq (h : n.bare = .seq items) :
    n.untagged = .seq (items.map Node.untagged) := by
  rw [← Node.untagged_bare, h, Node.untagged, Node.untaggedItems_eq]

theorem untagged_ne_seq (h : ∀ items, n.bare ≠ .seq items) (items : List Node) :
    n.untagged.bare ≠ .seq items := by
  rw [← Node.untagged_bare]
  cases hn : n.bare with
  | seq items => exact absurd hn (h items)
  | tagged tag m => exact absurd hn (Node.bare_ne_tagged n tag m)
  | _ => exact nofun

/-- **Vectors with their tags and without them.** If the items are compared by `p`, vectors are
compared by whether `p` holds of some item. -/
theorem compared_vector {p : Node → Prop} (hn : n.InWords)
    (h : ∀ item : Node, item.InWords →
      Compared marks (p item) (c.convert item) (c.convert item.untagged)) :
    Compared marks (∃ items, n.bare = .seq items ∧ ∃ item ∈ items, p item)
      (c.vector.convert n) (c.vector.convert n.untagged) := by
  by_cases hseq : ∃ items, n.bare = .seq items
  · obtain ⟨items, hitems⟩ := hseq
    have hexists : (∃ items, n.bare = .seq items ∧ ∃ item ∈ items, p item) ↔
        ∃ item ∈ items, p item := by
      rw [hitems]
      simp
    have huntagged := untagged_of_bare_seq hitems
    rw [hexists]
    by_cases hne : items = []
    · subst hne
      rw [convert_vector_of_empty c hitems, huntagged, convert_vector_of_empty c rfl]
      exact .of_eq (by simp) rfl
    -- Braces and separators weigh nothing, so the vectors weigh what their items do.
    · have hne' : items.map Node.untagged ≠ [] := by simpa using hne
      have hmapM := compared_mapM fun item hitem => h item (hn.of_bare_seq hitems item hitem)
      rw [convert_vector_of_seq c hitems hne, huntagged, convert_vector_of_seq c rfl hne',
        List.mapM_map]
      refine hmapM.map fun a b hlt => ?_
      rw [marks_braced, marks_braced]
      exact hlt
  · rw [not_exists] at hseq
    refine .of_eq ?_ ?_
    · rintro ⟨items, hitems, _⟩
      exact hseq items hitems
    · rw [convert_vector_of_not_seq c hseq, convert_vector_of_not_seq c (untagged_ne_seq hseq),
        Node.shallow_describe.untagged]

/-! ### Every type -/

/-- What becomes of a value with its tags and without them. -/
theorem compared_converter (T : DeclaredType) (hn : n.InWords) :
    Compared marks (HidesInteger T n) (T.converter.convert n) (T.converter.convert n.untagged) := by
  induction T generalizing n with
  | scalar s => exact compared_literal s hn
  | vector element ih => exact compared_vector hn fun item hitem => ih hitem

theorem convert_eq {typeName : String} {T : DeclaredType} (hT : Derives T typeName.toList)
    (n : Node) : Registry.builtin.convert typeName n = T.converter.convert n := by
  rw [Registry.convert, lookup_eq_ok_iff.2 ⟨T, hT, rfl⟩]
  rfl

/-- **Which tags make a difference.** For every type with a name, taking all tags out of a value
changes neither the literal nor the refusal, unless a tag hides an integer that is to be a
floating-point number; and then it always changes the literal, if there is one. -/
theorem convert_untagged_iff {typeName : String} {T : DeclaredType}
    (hT : Derives T typeName.toList) (hn : n.InWords) :
    Registry.builtin.convert typeName n = Registry.builtin.convert typeName n.untagged ↔
      (HidesInteger T n → ∃ e, Registry.builtin.convert typeName n.untagged = .error e) := by
  rw [convert_eq hT, convert_eq hT]
  exact (compared_converter T hn).eq_iff

/-- Items of which one has a tag, in a list that has one as well. -/
def taggedItems : Node :=
  .tagged "!x" (.seq [.tagged "!y" (.int 3), .int 4])

/-- As a vector of floating-point numbers it is another one without its tags. -/
theorem convert_untagged_iff_taggedItems :
    Derives (.vector (.scalar .double)) "vector(double)".toList ∧ taggedItems.InWords ∧
      HidesInteger (.vector (.scalar .double)) taggedItems ∧
      Registry.builtin.convert "vector(double)" taggedItems.untagged = .ok "\x7b3, 4\x7d" ∧
      Registry.builtin.convert "vector(double)" taggedItems ≠
        Registry.builtin.convert "vector(double)" taggedItems.untagged := by
  have hderives : Derives (.vector (.scalar .double)) "vector(double)".toList :=
    derives_name (.vector (.scalar .double))
  have hwords : taggedItems.InWords := by
    have hthree : (Node.int 3).InWords := .int (by constructor <;> decide)
    have hfour : (Node.int 4).InWords := .int (by constructor <;> decide)
    refine .tagged _ (.seq fun item hitem => ?_)
    rcases List.mem_pair.1 hitem with rfl | rfl
    · exact .tagged _ hthree
    · exact hfour
  have hhides : HidesInteger (.vector (.scalar .double)) taggedItems :=
    ⟨_, rfl, .tagged "!y" (.int 3), by simp, Or.inl rfl, "!y", .int 3, 3, rfl, rfl⟩
  have hliteral : Registry.builtin.convert "vector(double)" taggedItems.untagged =
      .ok "\x7b3, 4\x7d" := by
    rw [convert_eq hderives]
    decide
  refine ⟨hderives, hwords, hhides, hliteral, fun h => ?_⟩
  obtain ⟨e, he⟩ := (convert_untagged_iff hderives hwords).1 h hhides
  rw [hliteral] at he
  cases he

end Foundry.Parameter
