import Foundry.Parameter.Scalar
import Foundry.Text.Affix

/-!
# Converters and their registry

A `Converter` is a parameter type as the rest of the library sees it: a name, a C++ type and a way
to write values as literals. A `Registry` holds converters under their names. Vector types need no
registration: `vector(T)` is looked up by looking up `T`, to any depth, with blanks allowed around
either name; a name that is registered as it stands wins.

* `converter?_register_self`: a registered converter stands under its name.
* `length_lt_of_elementName?`: an element name is shorter than the vector name that holds it.
-/

namespace Foundry.Parameter

open Foundry.Text Foundry.Yaml

/-- A parameter type. -/
structure Converter where
  name : String
  ccType : String
  convert : Node → Except ConversionError String

namespace Converter

/-- The converter of a scalar type. -/
def ofScalar (s : Scalar) : Converter :=
  ⟨s.name, s.ccType, s.literal⟩

/-- The literals of a list of values, or the first refusal. -/
def convertAll (c : Converter) (items : List Node) : Except ConversionError (List String) :=
  items.mapM c.convert

/-- The converter of vectors of a type. -/
def vector (element : Converter) : Converter :=
  let name := "vector(" ++ element.name ++ ")"
  { name
    ccType := "std::vector<" ++ element.ccType ++ ">"
    convert := fun n =>
      match n.bare with
      | .seq [] => .ok "\x7b \x7d"
      | .seq items =>
        (element.convertAll items).map fun elements =>
          "\x7b" ++ ", ".intercalate elements ++ "\x7d"
      | _ => .error (.notAVector n.describe name) }

end Converter

/-- Converters, each under its own name. -/
structure Registry where
  converters : List Converter

namespace Registry

/-- No converters. -/
def empty : Registry := ⟨[]⟩

/-- The converter registered under a name. -/
def converter? (r : Registry) (name : String) : Option Converter :=
  r.converters.find? fun c => c.name == name

/-- Registers a converter under its name, in place of the one that stood there. -/
def register (r : Registry) (c : Converter) : Registry :=
  ⟨c :: r.converters.filter fun d => d.name != c.name⟩

/-- The converter that is told when a converter is registered: the one that it replaces. -/
def replaced? (r : Registry) (c : Converter) : Option Converter :=
  r.converter? c.name

/-- Every scalar type. -/
def builtin : Registry :=
  ⟨Scalar.all.map Converter.ofScalar⟩

/-- The element name in a vector name. -/
def elementName? (name : List Char) : Option (List Char) := do
  let behind ← dropStart? "vector".toList name
  let opened ← dropStart? ['('] (trimStart behind)
  let inner := trim (← dropEnd? [')'] opened)
  if inner.isEmpty then none else some inner

theorem length_trimStart_le (cs : List Char) : (trimStart cs).length ≤ cs.length :=
  (List.dropWhile_sublist _).length_le

theorem length_trim_le (cs : List Char) : (trim cs).length ≤ cs.length := by
  have h := ((trimStart cs).reverse.dropWhile_sublist isBlank).length_le
  simp only [List.length_reverse] at h
  simpa [trim, trimEnd] using Nat.le_trans h (length_trimStart_le cs)

theorem length_lt_of_elementName? {name inner : List Char} (h : elementName? name = some inner) :
    inner.length < name.length := by
  simp only [elementName?, Option.bind_eq_bind, Option.bind_eq_some_iff, dropStart?_eq_some_iff,
    dropEnd?_eq_some_iff] at h
  obtain ⟨behind, rfl, opened, hopened, closed, rfl, h⟩ := h
  split at h
  · cases h
  · obtain rfl := Option.some.inj h
    have h₁ := length_trim_le closed
    have h₂ := length_trimStart_le behind
    rw [hopened] at h₂
    simp only [List.length_append, List.length_cons, List.length_nil] at h₂ ⊢
    omega

/-- The converter that a trimmed name stands for, if any. -/
def resolve? (r : Registry) (name : List Char) : Option Converter :=
  match r.converter? (String.ofList name) with
  | some c => some c
  | none =>
    match h : elementName? name with
    | some inner =>
      have := length_lt_of_elementName? h
      (r.resolve? inner).map Converter.vector
    | none => none
termination_by name.length

/-- The converter of a declared type; blanks around the name do not count. -/
def lookup (r : Registry) (typeName : String) : Except ConversionError Converter :=
  match r.resolve? (trim typeName.toList) with
  | some c => .ok c
  | none => .error (.unknownType typeName)

/-- A value as a literal of a declared type. -/
def convert (r : Registry) (typeName : String) (n : Node) : Except ConversionError String := do
  (← r.lookup typeName).convert n

/-! ### Small laws -/

@[simp]
theorem converter?_register_self (r : Registry) (c : Converter) :
    (r.register c).converter? c.name = some c := by
  simp [register, converter?]

theorem converter?_register_of_ne (r : Registry) (c : Converter) {name : String}
    (h : c.name ≠ name) : (r.register c).converter? name = r.converter? name := by
  simp only [register, converter?, List.find?_cons, beq_eq_false_iff_ne.2 h, List.find?_filter]
  congr 1
  funext d
  by_cases hd : d.name = name
  · simp [hd, Ne.symm h]
  · simp [hd]

end Registry

end Foundry.Parameter
