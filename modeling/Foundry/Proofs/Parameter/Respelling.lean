import Foundry.Proofs.Parameter.Registration
import Foundry.Proofs.Parameter.Tags
import Mathlib.Algebra.Order.BigOperators.Group.List

/-!
# Blanks around element names

`Respelled` relates spellings of a name that differ only in the blanks around element names, at any
depth. A name that is registered as it stands is not taken apart, so a registered vector goes its
own way in one spelling while the others are rebuilt from the element. The spellings of a name are
looked up alike exactly if no registered one among them, or among those of the element names in it,
differs from what would be rebuilt (`Rebuilds`).

* `exists_fresh_spelling`: there are always spellings that are not registered.
* `Converter.vector_injective`: a vector tells its element.
* `Tolerates.element`: blanks that do not matter around a name do not matter within it.
* `tolerates_iff`: when the spellings of one name are resolved alike.
* `lookup_respelled_iff`: the same for look-ups, for one name and for all of them.
-/

namespace Foundry.Parameter

open Text Yaml

variable {r : Registry} {name other between inside inner : List Char}

/-! ### Spellings -/

/-- Spellings of a name that differ in nothing but the blanks around element names: around that of
the vector, and around those within it. -/
inductive Respelled : List Char → List Char → Prop
  | refl (name : List Char) : Respelled name name
  | vector {between inside inside' : List Char} (hbetween : AllBlank between)
    (hne : trim inside ≠ []) (h : Respelled (trim inside) (trim inside')) :
    Respelled (vectorSpelling between inside) (vectorSpelling between inside')

theorem respelled_of_eq (h : name = other) : Respelled name other :=
  h ▸ .refl name

theorem elementName?_vectorSpelling (hbetween : AllBlank between) (hne : trim inside ≠ []) :
    Registry.elementName? (vectorSpelling between inside) = some (trim inside) := by
  unfold vectorSpelling
  rw [elementName?_eq_some_iff]
  exact ⟨between, inside, hbetween, rfl, rfl, hne⟩

/-- A name of an element stands between parentheses, behind the word and blanks. -/
theorem exists_vectorSpelling (h : Registry.elementName? name = some inner) :
    ∃ between inside, AllBlank between ∧ name = vectorSpelling between inside ∧
      trim inside = inner ∧ inner ≠ [] := by
  obtain ⟨between, inside, hbetween, hname, hinside, hne⟩ := elementName?_eq_some_iff.1 h
  refine ⟨between, inside, hbetween, ?_, hinside, hne⟩
  unfold vectorSpelling
  exact hname

theorem Respelled.trim_eq (h : Respelled name other) (hname : trim name = name) :
    trim other = other := by
  cases h with
  | refl => exact hname
  | vector => exact trim_vectorSpelling _ _

theorem Respelled.ne_nil (h : Respelled name other) (hname : name ≠ []) : other ≠ [] := by
  cases h with
  | refl => exact hname
  | vector =>
    unfold vectorSpelling
    exact List.append_ne_nil_of_right_ne_nil _ (List.cons_ne_nil ')' [])

/-! ### Vectors tell their elements -/

theorem braced_singleton_injective {a b : String} (h : braced [a] = braced [b]) : a = b := by
  rw [← String.toList_inj] at h ⊢
  simpa [braced] using h

theorem convert_vector_singleton (c : Converter) (n : Node) :
    c.vector.convert (.seq [n]) = (c.convert n).map fun literal => braced [literal] := by
  rw [convert_vector_of_seq c rfl (List.cons_ne_nil n []), List.mapM_cons, List.mapM_nil]
  cases c.convert n <;> rfl

/-- Vectors of different converters are different: one item tells them apart. -/
theorem Converter.vector_injective : Function.Injective Converter.vector := by
  intro c d h
  have hname : c.name = d.name := by
    have htext := congrArg (fun e => e.name.toList) h
    rw [← String.toList_inj]
    simpa [Converter.vector] using htext
  have hccType : c.ccType = d.ccType := by
    have htext := congrArg (fun e => e.ccType.toList) h
    rw [← String.toList_inj]
    simpa [Converter.vector] using htext
  have hconvert : c.convert = d.convert := by
    funext n
    have hsingleton : c.vector.convert (.seq [n]) = d.vector.convert (.seq [n]) := by rw [h]
    rw [convert_vector_singleton, convert_vector_singleton] at hsingleton
    cases hc : c.convert n with
    | error e =>
      rw [hc] at hsingleton
      exact (map_eq_error_iff.1 hsingleton.symm).symm
    | ok literal =>
      cases hd : d.convert n with
      | error e =>
        rw [hc, hd] at hsingleton
        cases hsingleton
      | ok literal' =>
        rw [hc, hd] at hsingleton
        rw [braced_singleton_injective (Except.ok.inj hsingleton)]
  cases c
  cases d
  simp_all

/-! ### Spellings that are not registered -/

namespace Registry

/-- A name that is longer than all names together is not registered. -/
theorem converter?_eq_none_of_longer {typeName : String}
    (h : (r.converters.map fun c => c.name.length).sum < typeName.length) :
    r.converter? typeName = none := by
  rw [converter?, List.find?_eq_none]
  intro c hc hname
  have hle : c.name.length ≤ (r.converters.map fun c => c.name.length).sum :=
    List.le_sum_of_mem (List.mem_map.2 ⟨c, hc, rfl⟩)
  rw [beq_iff_eq.1 hname] at hle
  omega

/-- A name of a vector with so many blanks around the element name that it is not registered. -/
theorem exists_fresh_spelling (r : Registry) (between inside : List Char) :
    ∃ inside', trim inside' = trim inside ∧
      r.converter? (String.ofList (vectorSpelling between inside')) = none := by
  have hblank : AllBlank (List.replicate (r.converters.map fun c => c.name.length).sum ' ') := by
    intro c hc
    rw [List.eq_of_mem_replicate hc]
    decide
  refine ⟨List.replicate (r.converters.map fun c => c.name.length).sum ' ' ++ inside, ?_, ?_⟩
  · rw [trim, trimStart_append hblank, ← trim]
  · refine converter?_eq_none_of_longer ?_
    unfold vectorSpelling
    rw [String.length_ofList]
    simp only [List.length_append, List.length_cons, List.length_replicate]
    omega

/-- In such a spelling, a vector is rebuilt from its element. -/
theorem exists_rebuilt_spelling (r : Registry) (hbetween : AllBlank between)
    (hne : trim inside ≠ []) :
    ∃ inside', trim inside' = trim inside ∧
      r.resolve? (vectorSpelling between inside') =
        (r.resolve? (trim inside)).map Converter.vector := by
  obtain ⟨inside', htrim, hfresh⟩ := r.exists_fresh_spelling between inside
  refine ⟨inside', htrim, ?_⟩
  have helement := elementName?_vectorSpelling hbetween (htrim ▸ hne)
  rw [resolve?_eq, hfresh, Option.none_or, helement, Option.bind_some, htrim]

/-! ### Names that are resolved alike -/

/-- If a converter is registered under a name that is that of a vector, then it is the one that
would be rebuilt from the element. -/
def Rebuilds (r : Registry) (name : List Char) : Prop :=
  ∀ c inner, r.converter? (String.ofList name) = some c → elementName? name = some inner →
    (r.resolve? inner).map Converter.vector = some c

/-- All spellings of a name are resolved as the name is. -/
def Tolerates (r : Registry) (name : List Char) : Prop :=
  ∀ other, Respelled name other → r.resolve? other = r.resolve? name

/-- A name that is rebuilt is resolved as a vector of its element. -/
theorem Rebuilds.resolve?_eq (h : r.Rebuilds name) (hinner : elementName? name = some inner) :
    r.resolve? name = (r.resolve? inner).map Converter.vector := by
  rw [Registry.resolve?_eq, hinner, Option.bind_some]
  cases hc : r.converter? (String.ofList name) with
  | none => rw [Option.none_or]
  | some c => rw [Option.some_or, h c inner hc hinner]

/-- Names are resolved alike if every respelling of what they unfold to is rebuilt. -/
theorem resolve?_eq_of_respelled (h : Respelled name other)
    (hrebuilds : ∀ inner, Unfolds name inner → ∀ spelling, Respelled inner spelling →
      r.Rebuilds spelling) : r.resolve? other = r.resolve? name := by
  induction h with
  | refl => rfl
  | vector hbetween hne h ih =>
    have hinner := elementName?_vectorSpelling hbetween hne
    have hinner' := elementName?_vectorSpelling hbetween (h.ne_nil hne)
    have hname := hrebuilds _ .refl _ (.refl _)
    have hother := hrebuilds _ .refl _ (.vector hbetween hne h)
    rw [hname.resolve?_eq hinner, hother.resolve?_eq hinner']
    rw [ih fun inner hunfolds => hrebuilds inner (.head hinner hunfolds)]

/-- What is registered under a spelling of a name whose blanks do not matter is what would be
rebuilt, since it is so in a spelling that is not registered. -/
theorem Tolerates.rebuilds (h : r.Tolerates name) (hother : Respelled name other) :
    r.Rebuilds other := by
  intro c inner hc hinner
  have hregistered : r.resolve? other = some c := by
    rw [Registry.resolve?_eq, hc, Option.some_or]
  have hsame := h other hother
  cases hother with
  | refl =>
    obtain ⟨between, inside, hbetween, rfl, rfl, hne⟩ := exists_vectorSpelling hinner
    obtain ⟨fresh, htrim, hfresh⟩ := r.exists_rebuilt_spelling hbetween hne
    have hsame' := h _ (.vector hbetween hne (respelled_of_eq htrim.symm))
    rw [← hfresh, hsame', hregistered]
  | @vector between inside inside' hbetween hne hinside =>
    have hne' := hinside.ne_nil hne
    obtain ⟨fresh, htrim, hfresh⟩ := r.exists_rebuilt_spelling hbetween hne'
    rw [elementName?_vectorSpelling hbetween hne', Option.some.injEq] at hinner
    have hsame' := h _ (.vector hbetween hne (htrim.symm ▸ hinside))
    rw [← hinner, ← hfresh, hsame', ← hsame, hregistered]

/-- **Inwards.** If the blanks around a name do not matter, those around its element name do not
either, because a vector tells its element. -/
theorem Tolerates.element (h : r.Tolerates name) (hinner : elementName? name = some inner) :
    r.Tolerates inner := by
  intro other hother
  obtain ⟨between, inside, hbetween, rfl, rfl, hne⟩ := exists_vectorSpelling hinner
  -- Both names are the elements of vectors in spellings that have to be rebuilt.
  have htrim : trim other = other := hother.trim_eq (trim_trim inside)
  have hne' : trim other ≠ [] := htrim.symm ▸ hother.ne_nil hne
  obtain ⟨fresh, hfreshTrim, hfresh⟩ := r.exists_rebuilt_spelling hbetween hne
  obtain ⟨fresh', hfreshTrim', hfresh'⟩ := r.exists_rebuilt_spelling hbetween hne'
  have hsame := h _ (.vector hbetween hne (respelled_of_eq hfreshTrim.symm))
  have hsame' := h _ (.vector hbetween hne ((hfreshTrim'.trans htrim).symm ▸ hother))
  rw [hfresh] at hsame
  rw [hfresh', htrim] at hsame'
  exact Option.map_injective Converter.vector_injective (hsame'.trans hsame.symm)

/-- What tolerates respelling does so at every depth. -/
theorem Tolerates.of_unfolds (h : r.Tolerates name) (hinner : Unfolds name inner) :
    r.Tolerates inner := by
  induction hinner with
  | refl => exact h
  | tail _ hlast ih => exact ih.element hlast

/-- **When blanks do not matter.** The spellings of a name are resolved alike exactly if every
spelling of a name that it unfolds to is registered as what would be rebuilt, or not at all. -/
theorem tolerates_iff : r.Tolerates name ↔
    ∀ inner, Unfolds name inner → ∀ spelling, Respelled inner spelling → r.Rebuilds spelling := by
  constructor
  · intro h inner hinner spelling hspelling
    exact (h.of_unfolds hinner).rebuilds hspelling
  · intro h other hother
    exact resolve?_eq_of_respelled hother h

/-! ### Look-ups -/

theorem toOption_lookup (r : Registry) (typeName : String) :
    (r.lookup typeName).toOption = r.resolve? (trim typeName.toList) := by
  ext c
  rw [toOption_eq_some_iff, lookup_eq_ok_iff_resolve?]

/-- Whatever blanks are around a name as a whole, its spellings are looked up alike if they are
resolved alike. -/
theorem lookup_alike_iff_tolerates {typeName : String} :
    (∀ other : String, Respelled (trim typeName.toList) (trim other.toList) →
      (r.lookup other).toOption = (r.lookup typeName).toOption) ↔
      r.Tolerates (trim typeName.toList) := by
  simp only [toOption_lookup]
  constructor
  · intro h other hother
    have htrim := hother.trim_eq (trim_trim typeName.toList)
    have hsame := h (String.ofList other)
    rw [String.toList_ofList, htrim] at hsame
    exact hsame hother
  · intro h other hother
    exact h _ hother

theorem rebuilds_of_elementName?_eq_none (h : elementName? name = none) : r.Rebuilds name := by
  intro c inner _ hinner
  rw [h] at hinner
  cases hinner

/-- Where no name of a vector has been registered, every vector is rebuilt. -/
theorem Reached.rebuilds {history : List Converter} (h : r.Reached history)
    (hplain : ∀ c ∈ history, elementName? c.name.toList = none) (name : List Char) :
    r.Rebuilds name := by
  intro c inner hc
  have hmem : c ∈ history := by
    rw [h.converter?_eq] at hc
    exact List.mem_of_find?_eq_some hc
  have hname : c.name.toList = name := by rw [name_of_converter? hc, String.toList_ofList]
  exact rebuilds_of_elementName?_eq_none (hname ▸ hplain c hmem) c inner hc

/-- **Blanks around element names.** For every registry, all spellings of a name that differ in the
blanks around element names are unknown, or give converters that are the same in name, C++ type and
conversions, exactly if every registered spelling of the name, or of an element name in it, is what
would be rebuilt from its own element. So it is for all names at once exactly if every registered
vector is what its element gives; and it is so as long as no name of a vector is registered. -/
theorem lookup_respelled_iff (r : Registry) :
    (∀ typeName : String,
      (∀ other : String, Respelled (trim typeName.toList) (trim other.toList) →
        (r.lookup other).toOption = (r.lookup typeName).toOption) ↔
      ∀ inner, Unfolds (trim typeName.toList) inner → ∀ spelling, Respelled inner spelling →
        r.Rebuilds spelling) ∧
    ((∀ typeName other : String, Respelled (trim typeName.toList) (trim other.toList) →
        (r.lookup other).toOption = (r.lookup typeName).toOption) ↔ ∀ name, r.Rebuilds name) ∧
    ∀ history, r.Reached history → (∀ c ∈ history, elementName? c.name.toList = none) →
      ∀ typeName other : String, Respelled (trim typeName.toList) (trim other.toList) →
        (r.lookup other).toOption = (r.lookup typeName).toOption := by
  have htolerates (hrebuilds : ∀ name, r.Rebuilds name) (typeName : String) :
      r.Tolerates (trim typeName.toList) :=
    tolerates_iff.2 fun _ _ spelling _ => hrebuilds spelling
  refine ⟨fun typeName => ?_, ⟨fun h name => ?_, fun h typeName => ?_⟩,
    fun history hreached hplain typeName => ?_⟩
  · rw [lookup_alike_iff_tolerates, tolerates_iff]
  · cases hinner : elementName? name with
    | none => exact rebuilds_of_elementName?_eq_none hinner
    | some inner =>
      obtain ⟨between, inside, _, rfl, _, _⟩ := exists_vectorSpelling hinner
      have halike :=
        lookup_alike_iff_tolerates.1 (h (String.ofList (vectorSpelling between inside)))
      rw [String.toList_ofList, trim_vectorSpelling] at halike
      exact halike.rebuilds (.refl _)
  · exact lookup_alike_iff_tolerates.2 (htolerates h typeName)
  · exact lookup_alike_iff_tolerates.2 (htolerates (hreached.rebuilds hplain) typeName)

/-- Integers with a C++ type of their own. -/
def wideInteger : Converter :=
  ⟨"int32", "Wide", (Scalar.integer .int32).literal⟩

/-- Vectors of 32-bit integers are registered, and then other 32-bit integers. -/
def staleVector : Registry :=
  (builtin.register (Converter.ofScalar (.integer .int32)).vector).register wideInteger

/-- With blanks inside, the name is that of vectors of the new integers; without, of the old. -/
theorem lookup_respelled_staleVector :
    (staleVector.lookup "vector(int32)").toOption =
        some (Converter.ofScalar (.integer .int32)).vector ∧
      (staleVector.lookup "vector( int32 )").toOption = some wideInteger.vector ∧
      ¬ ∀ other : String, Respelled (trim "vector(int32)".toList) (trim other.toList) →
        (staleVector.lookup other).toOption = (staleVector.lookup "vector(int32)").toOption := by
  have hold : staleVector.converter? "vector(int32)" =
      some (Converter.ofScalar (.integer .int32)).vector := by
    have hname : (Converter.ofScalar (.integer .int32)).vector.name = "vector(int32)" := by decide
    rw [staleVector, converter?_register_of_ne _ _ (by decide), ← hname, converter?_register_self]
  have hwide : staleVector.resolve? "int32".toList = some wideInteger :=
    resolve?_register_self _ (by decide)
  have htrim : trim "vector(int32)".toList = "vector(int32)".toList := by decide
  have hinner : elementName? "vector(int32)".toList = some "int32".toList := by decide
  refine ⟨?_, ?_, fun h => ?_⟩
  · rw [toOption_lookup, htrim, resolve?_eq, String.ofList_toList, hold, Option.some_or]
  · have hspaced : elementName? (trim "vector( int32 )".toList) = some "int32".toList := by decide
    have hnew : staleVector.converter? (String.ofList (trim "vector( int32 )".toList)) = none := by
      rw [← Option.isNone_iff_eq_none]
      decide
    rw [toOption_lookup, resolve?_eq, hnew, hspaced, Option.none_or, Option.bind_some, hwide]
    rfl
  · have hrebuilds := ((lookup_respelled_iff staleVector).1 "vector(int32)").1 h _ .refl _ (.refl _)
    rw [htrim] at hrebuilds
    have hsame := hrebuilds _ _ ((String.ofList_toList (s := "vector(int32)")).symm ▸ hold) hinner
    rw [hwide, Option.map_some, Option.some.injEq] at hsame
    have hccType : wideInteger.ccType = (Converter.ofScalar (.integer .int32)).ccType := by
      rw [Converter.vector_injective hsame]
    exact absurd hccType (by decide)

end Registry

end Foundry.Parameter
