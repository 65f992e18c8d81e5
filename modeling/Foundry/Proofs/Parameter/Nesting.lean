import Foundry.Proofs.Parameter.Bracing

/-!
# Vectors of vectors

A value is converted to vectors that are nested to a depth by a walk through it: down to this depth
there have to be sequences, and at this depth values of the scalar type (`Suits`). The refusal is
that of the first value on the walk that is something else (`Refuses`).

Where scalars are told apart by their literals, so are the nested lists of them, however long the
lists are and wherever they are empty.

* `errorOf?_convert_nested`: a conversion fails as the walk does.
* `toOption_convert_nested`: a literal is that of the nested list.
* `convert_nested`: both, for every name of the type.
-/

namespace Foundry.Yaml.Node

/-- The items of sequences within sequences, down to a number of levels, in the order of the
document: each sequence before its items. Every value has its depth with it, which is that of the
outermost value at the start. -/
def walk (depth : Nat) : Nat → Node → List (Nat × Node)
  | 0, n => [(depth, n)]
  | levels + 1, n => (depth, n) :: match n.bare with
    | .seq items => items.flatMap (walk (depth + 1) levels)
    | _ => []

/-- The walk goes down by the number of levels and no deeper. -/
theorem depth_le_of_mem_walk {depth levels : Nat} {n : Node} {x : Nat × Node}
    (h : x ∈ walk depth levels n) : x.1 ≤ depth + levels := by
  induction levels generalizing depth n with
  | zero =>
    rw [walk, List.mem_singleton] at h
    rw [h]
    exact Nat.le_refl depth
  | succ levels ih =>
    rw [walk] at h
    rcases List.mem_cons.1 h with rfl | h
    · exact Nat.le_add_right _ _
    · split at h
      · obtain ⟨item, _, h⟩ := List.mem_flatMap.1 h
        have hle := ih h
        omega
      · exact absurd h List.not_mem_nil

end Foundry.Yaml.Node

namespace Foundry.Parameter

open Decimal Yaml

/-- Vectors of a scalar type, nested to a depth. -/
def DeclaredType.nested (s : Scalar) : Nat → DeclaredType
  | 0 => .scalar s
  | levels + 1 => .vector (nested s levels)

variable {s : Scalar} {depth levels d : Nat} {n m : Node} {e : ConversionError}

/-! ### The walk -/

/-- A value at a depth is as it has to be: a sequence above the depth of the scalars, with tags or
without, and a value of the scalar type there. -/
inductive Suits (s : Scalar) (depth : Nat) : Nat → Node → Prop
  | seq {d : Nat} {m : Node} {items : List Node} (hd : d < depth) (h : m.bare = .seq items) :
    Suits s depth d m
  | scalar {m : Node} {literal : String} (h : s.literal m = .ok literal) : Suits s depth depth m

/-- A value at a depth is refused: as no vector of the type at this depth, or by the scalar type. -/
inductive Refuses (s : Scalar) (depth : Nat) : Nat → Node → ConversionError → Prop
  | notAVector {d : Nat} {m : Node} (hd : d < depth) (h : ∀ items, m.bare ≠ .seq items) :
    Refuses s depth d m (.notAVector m.describe (DeclaredType.nested s (depth - d)).name)
  | scalar {m : Node} {e : ConversionError} (h : s.literal m = .error e) :
    Refuses s depth depth m e

/-- What is said of a value at a depth, if anything is wrong with it. -/
def refusal? (s : Scalar) (depth d : Nat) (m : Node) : Option ConversionError :=
  if d < depth then
    match m.bare with
    | .seq _ => none
    | _ => some (.notAVector m.describe (DeclaredType.nested s (depth - d)).name)
  else errorOf? (s.literal m)

theorem refusal?_of_seq {items : List Node} (hd : d < depth) (h : m.bare = .seq items) :
    refusal? s depth d m = none := by
  rw [refusal?, if_pos hd, h]

theorem refusal?_of_not_seq (hd : d < depth) (h : ∀ items, m.bare ≠ .seq items) :
    refusal? s depth d m =
      some (.notAVector m.describe (DeclaredType.nested s (depth - d)).name) := by
  rw [refusal?, if_pos hd]
  split
  · rename_i items hitems
    exact absurd hitems (h items)
  · rfl

theorem refusal?_self (s : Scalar) (depth : Nat) (m : Node) :
    refusal? s depth depth m = errorOf? (s.literal m) :=
  if_neg (Nat.lt_irrefl depth)

theorem suits_iff_of_lt (hd : d < depth) :
    Suits s depth d m ↔ ∃ items, m.bare = .seq items := by
  constructor
  · intro h
    cases h with
    | seq _ hitems => exact ⟨_, hitems⟩
    | scalar => exact absurd hd (Nat.lt_irrefl _)
  · rintro ⟨items, hitems⟩
    exact .seq hd hitems

theorem suits_self_iff : Suits s depth depth m ↔ ∃ literal, s.literal m = .ok literal := by
  constructor
  · intro h
    cases h with
    | seq hd => exact absurd hd (Nat.lt_irrefl _)
    | scalar h => exact ⟨_, h⟩
  · rintro ⟨literal, h⟩
    exact .scalar h

theorem refuses_iff_of_lt (hd : d < depth) : Refuses s depth d m e ↔
    (∀ items, m.bare ≠ .seq items) ∧
      e = .notAVector m.describe (DeclaredType.nested s (depth - d)).name := by
  constructor
  · intro h
    cases h with
    | notAVector _ h => exact ⟨h, rfl⟩
    | scalar => exact absurd hd (Nat.lt_irrefl _)
  · rintro ⟨h, rfl⟩
    exact .notAVector hd h

theorem refuses_self_iff : Refuses s depth depth m e ↔ s.literal m = .error e := by
  constructor
  · intro h
    cases h with
    | notAVector hd => exact absurd hd (Nat.lt_irrefl _)
    | scalar h => exact h
  · exact .scalar

/-- Nothing is said of a value exactly if it suits. -/
theorem refusal?_eq_none_iff (hd : d ≤ depth) :
    refusal? s depth d m = none ↔ Suits s depth d m := by
  rcases Nat.lt_or_eq_of_le hd with hlt | rfl
  · rw [suits_iff_of_lt hlt, refusal?, if_pos hlt]
    cases m.bare <;> simp
  · rw [suits_self_iff, refusal?_self, errorOf?_eq_none_iff]

/-- What is said of a value is why it is refused. -/
theorem refusal?_eq_some_iff (hd : d ≤ depth) :
    refusal? s depth d m = some e ↔ Refuses s depth d m e := by
  rcases Nat.lt_or_eq_of_le hd with hlt | rfl
  · rw [refuses_iff_of_lt hlt, refusal?, if_pos hlt]
    cases m.bare <;> simp [eq_comm]
  · rw [refuses_self_iff, refusal?_self, errorOf?_eq_some_iff]

/-! ### Conversions and the walk -/

/-- A sequence is converted item by item, an empty one as well. -/
theorem convert_vector_eq {c : Converter} {items : List Node} (h : n.bare = .seq items) :
    c.vector.convert n = (items.mapM c.convert).map vectorText := by
  cases items with
  | nil => exact convert_vector_of_empty c h
  | cons item items =>
    rw [convert_vector_of_seq c h (List.cons_ne_nil item items), List.mapM_cons]
    cases c.convert item with
    | error e => rfl
    | ok literal => cases items.mapM c.convert <;> rfl

theorem findSome?_flatMap {α β γ : Type} (f : β → Option γ) (g : α → List β) (xs : List α) :
    (xs.flatMap g).findSome? f = xs.findSome? fun x => (g x).findSome? f := by
  induction xs with
  | nil => rfl
  | cons x xs ih =>
    rw [List.flatMap_cons, List.findSome?_append, ih, List.findSome?_cons]
    cases (g x).findSome? f <;> rfl

/-- **A conversion fails as the walk does.** -/
theorem errorOf?_convert_nested (s : Scalar) (d levels : Nat) (n : Node) :
    errorOf? ((DeclaredType.nested s levels).converter.convert n) =
      (n.walk d levels).findSome? fun x => refusal? s (d + levels) x.1 x.2 := by
  -- One level less is one step deeper, so the depth of the scalars stays what it is.
  induction levels generalizing d n with
  | zero =>
    rw [Node.walk, List.findSome?_singleton, Nat.add_zero, refusal?_self]
    rfl
  | succ levels ih =>
    have hd : d < d + (levels + 1) := Nat.lt_add_of_pos_right (Nat.succ_pos levels)
    rw [Node.walk, List.findSome?_cons]
    by_cases hseq : ∃ items, n.bare = .seq items
    · obtain ⟨items, hitems⟩ := hseq
      rw [refusal?_of_seq hd hitems, hitems, DeclaredType.nested, DeclaredType.converter,
        convert_vector_eq hitems, errorOf?_map, errorOf?_mapM]
      simp only [ih (d + 1), findSome?_flatMap, Nat.add_right_comm d 1 levels, Nat.add_assoc]
    · rw [not_exists] at hseq
      rw [refusal?_of_not_seq hd hseq, Nat.add_sub_cancel_left, DeclaredType.nested,
        DeclaredType.converter, convert_vector_of_not_seq _ hseq, ← DeclaredType.name_converter]
      rfl

/-- The error of a conversion is the first refusal on the walk. -/
theorem errorOf?_convert_eq_walk (s : Scalar) (depth : Nat) (n : Node) :
    errorOf? ((DeclaredType.nested s depth).converter.convert n) =
      (n.walk 0 depth).findSome? fun x => refusal? s depth x.1 x.2 := by
  rw [errorOf?_convert_nested s 0, Nat.zero_add]

theorem le_of_mem_walk {x : Nat × Node} (h : x ∈ n.walk 0 depth) : x.1 ≤ depth := by
  rw [← Nat.zero_add depth]
  exact Node.depth_le_of_mem_walk h

/-- A conversion succeeds exactly if everything on the walk suits. -/
theorem convert_nested_eq_ok_iff :
    (∃ literal, (DeclaredType.nested s depth).converter.convert n = .ok literal) ↔
      ∀ x ∈ n.walk 0 depth, Suits s depth x.1 x.2 := by
  rw [← errorOf?_eq_none_iff, errorOf?_convert_eq_walk, List.findSome?_eq_none_iff]
  exact forall₂_congr fun x hx => refusal?_eq_none_iff (le_of_mem_walk hx)

/-- A conversion fails with the refusal of the first value on the walk that does not suit. -/
theorem convert_nested_eq_error_iff :
    (DeclaredType.nested s depth).converter.convert n = .error e ↔
      ∃ before x after, n.walk 0 depth = before ++ x :: after ∧
        (∀ y ∈ before, Suits s depth y.1 y.2) ∧ Refuses s depth x.1 x.2 e := by
  rw [← errorOf?_eq_some_iff, errorOf?_convert_eq_walk, List.findSome?_eq_some_iff]
  apply exists_congr; intro before
  apply exists_congr; intro x
  apply exists_congr; intro after
  apply and_congr_right; intro hsplit
  -- Nothing on the walk is deeper than the scalars, so every refusal on it is one of the two kinds.
  have hdepth : ∀ y ∈ before ++ x :: after, y.1 ≤ depth := by
    rw [← hsplit]
    exact fun y => le_of_mem_walk
  have hx := hdepth x (List.mem_append_right before List.mem_cons_self)
  rw [refusal?_eq_some_iff hx, and_comm]
  refine and_congr_left' (forall₂_congr fun y hy => ?_)
  exact refusal?_eq_none_iff (hdepth y (List.mem_append_left _ hy))

/-! ### Nested lists -/

/-- Lists of values, nested to a depth. -/
def Nested (α : Type) : Nat → Type
  | 0 => α
  | levels + 1 => List (Nested α levels)

variable {α : Type} {read : Node → Except ConversionError α} {text : α → String}

/-- The nested list of what is read from the scalars of a value, if it is one of sequences down to
them and all of them are read. -/
def collect (read : Node → Except ConversionError α) : (levels : Nat) → Node →
    Option (Nested α levels)
  | 0, n => (read n).toOption
  | levels + 1, n =>
    match n.bare with
    | .seq items => items.mapM (collect read levels)
    | _ => none

/-- The literal of a nested list, from those of its scalars. -/
def Nested.literal (text : α → String) : (levels : Nat) → Nested α levels → String
  | 0, a => text a
  | levels + 1, as => vectorText (List.map (Nested.literal text levels) as)

theorem collect_of_seq {items : List Node} (h : n.bare = .seq items) :
    collect read (levels + 1) n = items.mapM (collect read levels) := by
  rw [collect, h]

theorem collect_of_not_seq (h : ∀ items, n.bare ≠ .seq items) :
    collect read (levels + 1) n = none := by
  cases hn : n.bare with
  | seq items => exact absurd hn (h items)
  | _ => rw [collect, hn]

theorem mapM_map_option {β γ : Type} (f : Node → Option β) (g : β → γ) (items : List Node) :
    (items.mapM fun item => (f item).map g) = (items.mapM f).map (List.map g) := by
  induction items with
  | nil => rfl
  | cons item items ih =>
    rw [List.mapM_cons, List.mapM_cons, ih]
    cases f item with
    | none => rfl
    | some b => cases items.mapM f <;> rfl

/-- **A literal is that of the nested list.** -/
theorem toOption_convert_nested (hread : ∀ m, s.literal m = (read m).map text) (levels : Nat)
    (n : Node) : ((DeclaredType.nested s levels).converter.convert n).toOption =
      (collect read levels n).map (Nested.literal text levels) := by
  induction levels generalizing n with
  | zero =>
    show (s.literal n).toOption = _
    rw [hread, toOption_map]
    rfl
  | succ levels ih =>
    rw [DeclaredType.nested, DeclaredType.converter]
    by_cases hseq : ∃ items, n.bare = .seq items
    · obtain ⟨items, hitems⟩ := hseq
      rw [convert_vector_eq hitems, collect_of_seq hitems, toOption_map, toOption_mapM]
      simp only [ih, mapM_map_option, Option.map_map]
      rfl
    · rw [not_exists] at hseq
      rw [convert_vector_of_not_seq _ hseq, collect_of_not_seq hseq]
      rfl

/-- A vector of separable literals is separable, to any depth. -/
theorem separable_literal (h : Separable text) (levels : Nat) :
    Separable (Nested.literal text levels) := by
  induction levels with
  | zero => exact h
  | succ levels ih => exact ih.vector

/-- **The literal determines the value.** -/
theorem exists_collect_of_convert_eq (hread : ∀ m, s.literal m = (read m).map text)
    (h : Separable text) {a b : Node} {literal : String}
    (ha : (DeclaredType.nested s levels).converter.convert a = .ok literal)
    (hb : (DeclaredType.nested s levels).converter.convert b = .ok literal) :
    ∃ v, collect read levels a = some v ∧ collect read levels b = some v := by
  rw [← toOption_eq_some_iff, toOption_convert_nested hread, Option.map_eq_some_iff] at ha hb
  obtain ⟨v, hv, hliteral⟩ := ha
  obtain ⟨w, hw, hliteral'⟩ := hb
  obtain rfl : v = w := (separable_literal h levels).injective (hliteral.trans hliteral'.symm)
  exact ⟨v, hv, hw⟩

/-- Integers are written with a sign and digits, so the texts around them can be told off. -/
theorem separable_int : Separable (toString : Int → String) := by
  apply Separable.of_plain
  · intro i hnil
    have hempty := ofText?_int i
    rw [hnil] at hempty
    cases hempty
  · intro i c hc
    have hsign := sign_or_digit_of_mem_int hc
    refine ⟨?_, ?_, ?_⟩ <;> rintro rfl <;> exact absurd hsign (by decide)
  · exact fun i j => int_injective

theorem separable_bool : Separable fun b : Bool => if b then "true" else "false" := by
  apply Separable.of_plain
  · intro b
    cases b <;> decide
  · intro b c hc
    have hall : (if b then "true" else "false").toList.all (fun c => decide (Plain c)) = true := by
      cases b <;> decide
    exact of_decide_eq_true (List.all_eq_true.1 hall c hc)
  · intro b c h
    cases b <;> cases c <;> first | rfl | exact absurd h (by decide)

/-! ### Conversions -/

/-- **Vectors of vectors.** -/
theorem convert_nested {typeName : String}
    (h : Derives (.nested s depth) typeName.toList) :
    (∀ n, (∃ literal, Registry.builtin.convert typeName n = .ok literal) ↔
      ∀ x ∈ n.walk 0 depth, Suits s depth x.1 x.2) ∧
    (∀ n e, Registry.builtin.convert typeName n = .error e ↔
      ∃ before x after, n.walk 0 depth = before ++ x :: after ∧
        (∀ y ∈ before, Suits s depth y.1 y.2) ∧ Refuses s depth x.1 x.2 e) ∧
    (∀ t, s = .integer t → ∀ a b literal, Registry.builtin.convert typeName a = .ok literal →
      Registry.builtin.convert typeName b = .ok literal →
      ∃ v, collect t.read depth a = some v ∧ collect t.read depth b = some v) ∧
    (s = .boolean → ∀ a b literal, Registry.builtin.convert typeName a = .ok literal →
      Registry.builtin.convert typeName b = .ok literal →
      ∃ v, collect readBoolean depth a = some v ∧ collect readBoolean depth b = some v) := by
  simp only [convert_eq h]
  refine ⟨fun n => convert_nested_eq_ok_iff, fun n e => convert_nested_eq_error_iff, ?_, ?_⟩
  · rintro t rfl a b literal ha hb
    exact exists_collect_of_convert_eq (fun _ => rfl) separable_int ha hb
  · rintro rfl a b literal ha hb
    exact exists_collect_of_convert_eq (fun _ => rfl) separable_bool ha hb

/-- Lists of different lengths, one of them with a tag. -/
def raggedLists : Node :=
  .seq [.tagged "!x" (.seq [.bool true, .int 0]), .seq []]

/-- The same truth values, in words. -/
def raggedWords : Node :=
  .seq [.seq [.str "TRUE", .str "false"], .seq []]

/-- Lists, and a number where a list has to be, in front of a word that is no truth value. -/
def brokenLists : Node :=
  .seq [.seq [.bool true], .int 3, .seq [.str "x"]]

/-- Lists with one literal have the same truth values, and the number is told. -/
theorem convert_nested_raggedLists :
    Derives (.nested .boolean 2) "vector(vector(boolean))".toList ∧
      Registry.builtin.convert "vector(vector(boolean))" raggedLists =
        .ok "\x7b\x7btrue, false\x7d, \x7b \x7d\x7d" ∧
      (∃ v, collect readBoolean 2 raggedLists = some v ∧
        collect readBoolean 2 raggedWords = some v) ∧
      Registry.builtin.convert "vector(vector(boolean))" brokenLists =
        .error (.notAVector "3" "vector(boolean)") := by
  have hderives : Derives (.nested .boolean 2) "vector(vector(boolean))".toList :=
    derives_name (.nested .boolean 2)
  obtain ⟨_, herror, _, hvalue⟩ := convert_nested hderives
  have hlists : Registry.builtin.convert "vector(vector(boolean))" raggedLists =
      .ok "\x7b\x7btrue, false\x7d, \x7b \x7d\x7d" := by
    rw [convert_eq hderives]
    decide
  have hwords : Registry.builtin.convert "vector(vector(boolean))" raggedWords =
      .ok "\x7b\x7btrue, false\x7d, \x7b \x7d\x7d" := by
    rw [convert_eq hderives]
    decide
  refine ⟨hderives, hlists, hvalue rfl _ _ _ hlists hwords, (herror _ _).2 ?_⟩
  refine ⟨[(0, brokenLists), (1, .seq [.bool true]), (2, .bool true)], (1, .int 3), _, rfl, ?_, ?_⟩
  · intro y hy
    simp only [List.mem_cons, List.not_mem_nil, or_false] at hy
    rcases hy with rfl | rfl | rfl
    · exact .seq (by decide) rfl
    · exact .seq (by decide) rfl
    · exact .scalar rfl
  · have hdescribe : (Node.int 3).describe = "3" := by decide
    rw [← hdescribe]
    exact .notAVector (by decide) nofun

end Foundry.Parameter
