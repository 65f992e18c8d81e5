import Foundry.Proofs.Parameter.TypeName
import Mathlib.Logic.Relation

/-!
# Registering converters

A registry keeps converters under their names as they are written. A name that is looked up is
trimmed first, and what is tried after it are the names that it unfolds to (`Unfolds`): its element
name, the element name of that one, and so on. None of these has blanks around it, so a converter
whose own name has some is kept and never found.

* `Registry.resolve?_congr`: a look-up depends on the names that the name unfolds to.
* `Registry.Reached.converter?_eq`: what stands under a name was registered last under it.
* `Registry.register_then_lookup`: what registering one more converter tells and changes.
-/

namespace Foundry.Parameter

open Text

/-! ### Names of vectors -/

/-- The name of a vector, as it is written. -/
def vectorSpelling (between inside : List Char) : List Char :=
  "vector".toList ++ between ++ '(' :: inside ++ [')']

theorem trim_vectorSpelling (between inside : List Char) :
    trim (vectorSpelling between inside) = vectorSpelling between inside := by
  unfold vectorSpelling
  refine trim_eq_self (fun c hc => ?_) fun c hc => ?_
  · obtain rfl : 'v' = c := by simpa using hc
    decide
  · rw [List.getLast?_concat, Option.mem_some_iff] at hc
    rw [← hc]
    decide

namespace Registry

variable {r s : Registry} {history : List Converter} {c : Converter} {name inner : List Char}

/-! ### Names that are tried -/

/-- A name unfolds to itself, to its element name if it is that of a vector, to the element name of
that one, and so on. -/
def Unfolds : List Char → List Char → Prop :=
  Relation.ReflTransGen fun outer inner => elementName? outer = some inner

theorem trim_elementName (h : elementName? name = some inner) : trim inner = inner := by
  obtain ⟨_, inside, _, _, rfl, _⟩ := elementName?_eq_some_iff.1 h
  exact trim_trim inside

/-- A name without blanks around it unfolds to such names only. -/
theorem Unfolds.trim_eq (h : Unfolds name inner) (hname : trim name = name) :
    trim inner = inner := by
  rcases Relation.ReflTransGen.cases_tail h with rfl | ⟨_, _, hlast⟩
  · exact hname
  · exact trim_elementName hlast

/-- **What a look-up depends on.** Registries that hold the same converters under the names that a
name unfolds to make the same of it. -/
theorem resolve?_congr
    (h : ∀ inner, Unfolds name inner →
      r.converter? (String.ofList inner) = s.converter? (String.ofList inner)) :
    r.resolve? name = s.resolve? name := by
  induction name using unfolding_induction with
  | step name ih =>
    have helement : ∀ inner, elementName? name = some inner →
        r.resolve? inner = s.resolve? inner := fun inner hinner =>
      ih inner hinner fun _ hunfolds => h _ (.head hinner hunfolds)
    rw [resolve?_eq, resolve?_eq, h name .refl]
    cases hinner : elementName? name with
    | none => rfl
    | some inner => rw [Option.bind_some, Option.bind_some, helement inner hinner]

theorem lookup_eq_of_resolve?_eq {typeName : String}
    (h : r.resolve? (trim typeName.toList) = s.resolve? (trim typeName.toList)) :
    r.lookup typeName = s.lookup typeName := by
  rw [lookup, lookup, h]

/-! ### Names that are found -/

theorem trim_vectorName (element : Converter) :
    trim element.vector.name.toList = element.vector.name.toList := by
  have hname : element.vector.name.toList = vectorSpelling [] element.name.toList := by
    unfold vectorSpelling
    simp [Converter.vector]
  rw [hname, trim_vectorSpelling]

theorem name_of_converter? {typeName : String} (h : r.converter? typeName = some c) :
    c.name = typeName := by
  have hfound := List.find?_some h
  exact beq_iff_eq.1 hfound

/-- The converter that is found for a trimmed name has a trimmed name. -/
theorem trim_name_of_resolve? (hname : trim name = name) (h : r.resolve? name = some c) :
    trim c.name.toList = c.name.toList := by
  rw [resolve?_eq, Option.or_eq_some_iff] at h
  rcases h with h | ⟨_, h⟩
  · rw [name_of_converter? h, String.toList_ofList, hname]
  · obtain ⟨inner, _, h⟩ := Option.bind_eq_some_iff.1 h
    obtain ⟨element, _, rfl⟩ := Option.map_eq_some_iff.1 h
    exact trim_vectorName element

/-! ### Registering -/

/-- A converter is found under its name once it was registered, and all others as before. -/
theorem converter?_register (r : Registry) (c : Converter) (name : String) :
    (r.register c).converter? name = if c.name = name then some c else r.converter? name := by
  split
  · rename_i hname
    rw [← hname, converter?_register_self]
  · rename_i hname
    exact converter?_register_of_ne r c hname

/-- Names that do not unfold to that of a converter are looked up as before it was registered. -/
theorem resolve?_register_of_ne (h : ∀ inner, Unfolds name inner → String.ofList inner ≠ c.name) :
    (r.register c).resolve? name = r.resolve? name :=
  resolve?_congr fun inner hinner => converter?_register_of_ne r c (h inner hinner).symm

/-- A converter with blanks around its name is registered, and not looked up under any name. -/
theorem resolve?_register_of_padded (hc : trimmed c.name ≠ c.name) (hname : trim name = name) :
    (r.register c).resolve? name = r.resolve? name := by
  -- None of the names that are tried has blanks around it, so the converter's is not among them.
  refine resolve?_register_of_ne fun inner hinner hsame => hc ?_
  have htrim := hinner.trim_eq hname
  rw [← hsame, trimmed, String.toList_ofList, htrim]

/-- A name without blanks around it resolves to what was registered under it last. -/
theorem resolve?_register_self (r : Registry) (hc : trimmed c.name = c.name) :
    (r.register c).resolve? (trim c.name.toList) = some c := by
  have hname : String.ofList (trim c.name.toList) = c.name := hc
  rw [resolve?_eq, hname, converter?_register_self, Option.some_or]

/-- A converter is found under its own name exactly if there are no blanks around it. -/
theorem lookup_register_self_iff (r : Registry) (c : Converter) :
    (r.register c).lookup c.name = .ok c ↔ trimmed c.name = c.name := by
  rw [lookup_eq_ok_iff_resolve?]
  constructor
  · intro h
    have htrim := trim_name_of_resolve? (trim_trim c.name.toList) h
    rw [trimmed, htrim, String.ofList_toList]
  · exact resolve?_register_self r

/-! ### Registries that are reached -/

/-- The registries that are built by registering one converter after the other, on no converters or
on those of the scalar types; with what has been registered, the last converter first. -/
inductive Reached : Registry → List Converter → Prop
  | empty : Reached .empty []
  | builtin : Reached .builtin (Scalar.all.reverse.map Converter.ofScalar)
  | register {r : Registry} {history : List Converter} (h : Reached r history) (c : Converter) :
    Reached (r.register c) (c :: history)

/-- **The last one stands.** Under a name stands what has been registered last under it. -/
theorem Reached.converter?_eq (h : r.Reached history) (name : String) :
    r.converter? name = history.find? fun d => d.name == name := by
  induction h with
  | empty => rfl
  | builtin =>
    -- The table has the scalar types in the other order, but each of them has a name of its own.
    have hall : ∀ s, s ∈ Scalar.all.reverse := fun s => List.mem_reverse.2 s.mem_all
    ext c
    rw [converter?_builtin_eq_some_iff, find?_scalars_eq_some_iff hall]
  | @register r history _ c ih =>
    rw [converter?_register, List.find?_cons, ih]
    by_cases hname : c.name = name
    · rw [if_pos hname, beq_iff_eq.2 hname]
    · rw [if_neg hname, beq_eq_false_iff_ne.2 hname]

/-- **Registering and looking up.** Registering a converter tells the one that was registered last
under its name. Afterwards the converter is found under its name if this has no blanks around it; if
it has, then nothing at all is looked up differently. In any case a name is looked up as before, if
neither its trimmed text nor an element name in it is that of the converter. -/
theorem register_then_lookup (h : r.Reached history) (c : Converter) :
    r.replaced? c = history.find? (fun d => d.name == c.name) ∧
    ((r.register c).lookup c.name = .ok c ↔ trimmed c.name = c.name) ∧
    (trimmed c.name ≠ c.name → ∀ typeName, (r.register c).lookup typeName = r.lookup typeName) ∧
    ∀ typeName : String,
      (∀ inner, Unfolds (trim typeName.toList) inner → String.ofList inner ≠ c.name) →
      (r.register c).lookup typeName = r.lookup typeName := by
  refine ⟨h.converter?_eq c.name, lookup_register_self_iff r c, fun hc typeName => ?_,
    fun typeName hne => ?_⟩
  · exact lookup_eq_of_resolve?_eq (resolve?_register_of_padded hc (trim_trim typeName.toList))
  · exact lookup_eq_of_resolve?_eq (resolve?_register_of_ne hne)

/-- A type of times that takes the place of the scalar one. -/
def stopwatch : Converter :=
  ⟨"time", "Stopwatch", Scalar.time.literal⟩

/-- A type with a blank in front of its name. -/
def paddedTime : Converter :=
  ⟨" time", "Padded", Scalar.time.literal⟩

/-- The scalar type is told when the other one is registered, which is told in its turn; and it is
what is found under the name with the blank, also once this has been registered. -/
theorem register_then_lookup_paddedTime :
    Reached (builtin.register stopwatch)
        (stopwatch :: Scalar.all.reverse.map Converter.ofScalar) ∧
      builtin.replaced? stopwatch = some (.ofScalar .time) ∧
      (builtin.register stopwatch).replaced? stopwatch = some stopwatch ∧
      (builtin.register stopwatch).replaced? paddedTime = none ∧
      (builtin.register stopwatch).lookup "time" = .ok stopwatch ∧
      ((builtin.register stopwatch).register paddedTime).lookup " time" = .ok stopwatch := by
  have hreached := Reached.builtin.register stopwatch
  have htimed : trimmed stopwatch.name = stopwatch.name := by decide
  have hpadded : trimmed paddedTime.name ≠ paddedTime.name := by decide
  obtain ⟨hfirst, hfound, _⟩ := register_then_lookup .builtin stopwatch
  obtain ⟨hagain, _⟩ := register_then_lookup hreached stopwatch
  obtain ⟨hnew, _, hunseen, _⟩ := register_then_lookup hreached paddedTime
  refine ⟨hreached, hfirst, hagain, hnew, hfound.2 htimed, ?_⟩
  rw [hunseen hpadded, lookup_eq_ok_iff_resolve?]
  exact resolve?_register_self builtin htimed

end Registry

end Foundry.Parameter
