import Foundry.Parameter.Registry

/-!
# Names of types

A `DeclaredType` is a scalar type or a vector of a type. `Derives` is the grammar of the names that
descriptors may give it: the name of a scalar, or `vector` and a name in parentheses, with blanks
around every part. The registry of scalars knows exactly these names. It does not match parentheses:
it takes `vector` and `(` away at the start of a name and `)` at its end, and looks up what is left.

* `Registry.unfolding_induction`: induction from element names to the names that hold them.
* `resolve?_builtin_eq_some_iff`: what the registry makes of a name without blanks around it.
* `Derives.name_eq`: a name without its blanks is the canonical one.
* `lookup_builtin`: which names are known, what they stand for, and what is said of the others.
-/

namespace Foundry.Parameter

open Text

/-- The types of parameters. -/
inductive DeclaredType where
  | scalar (s : Scalar)
  | vector (element : DeclaredType)

namespace DeclaredType

/-- The name without any blanks. -/
def name : DeclaredType → String
  | scalar s => s.name
  | vector element => "vector(" ++ element.name ++ ")"

/-- The type in C++. -/
def ccType : DeclaredType → String
  | scalar s => s.ccType
  | vector element => "std::vector<" ++ element.ccType ++ ">"

/-- The converter of the type. -/
def converter : DeclaredType → Converter
  | scalar s => .ofScalar s
  | vector element => element.converter.vector

theorem name_converter (T : DeclaredType) : T.converter.name = T.name := by
  induction T with
  | scalar s => rfl
  | vector element ih => rw [converter, Converter.vector, name, ih]

theorem ccType_converter (T : DeclaredType) : T.converter.ccType = T.ccType := by
  induction T with
  | scalar s => rfl
  | vector element ih => exact congrArg (fun inner => "std::vector<" ++ inner ++ ">") ih

end DeclaredType

/-- The names of a type, with blanks wherever they may stand. -/
inductive Derives : DeclaredType → List Char → Prop
  | scalar (s : Scalar) {before after : List Char} (hbefore : AllBlank before)
    (hafter : AllBlank after) : Derives (.scalar s) (before ++ s.name.toList ++ after)
  | vector {T : DeclaredType} {before between inner after : List Char} (hbefore : AllBlank before)
    (hbetween : AllBlank between) (hinner : Derives T inner) (hafter : AllBlank after) :
    Derives (.vector T)
      (before ++ ("vector".toList ++ between ++ '(' :: inner ++ [')']) ++ after)

variable {T : DeclaredType} {s : Scalar} {c : Converter} {cs before after : List Char}

example : Scalar.all.map Scalar.name = ["string", "integer", "int8", "int16", "int32", "int64",
    "uint8", "uint16", "uint32", "uint64", "double", "float", "boolean", "time"] := by decide

/-! ### Scalars -/

theorem Scalar.mem_all (s : Scalar) : s ∈ Scalar.all := by
  rcases s with _ | t | _ | _ | _ | _
  case integer => cases t <;> decide
  all_goals decide

theorem Scalar.name_injective {s t : Scalar} (h : s.name = t.name) : s = t := by
  have hall : ∀ s ∈ Scalar.all, ∀ t ∈ Scalar.all, s.name = t.name → s = t := by decide
  exact hall s s.mem_all t t.mem_all h

/-- A scalar's name has no blank in it and is not that of a vector. -/
theorem Scalar.name_plain (s : Scalar) : s.name.toList ≠ [] ∧
    (∀ c ∈ s.name.toList, isBlank c = false) ∧ dropStart? "vector".toList s.name.toList = none := by
  have hall : ∀ s ∈ Scalar.all, s.name.toList ≠ [] ∧
      s.name.toList.all (fun c => !isBlank c) = true ∧
        dropStart? "vector".toList s.name.toList = none := by decide
  obtain ⟨hne, hplain, hvector⟩ := hall s s.mem_all
  exact ⟨hne, by simpa using hplain, hvector⟩

namespace Registry

/-- A scalar type has one name, so it does not matter in which order they are looked through. -/
theorem find?_scalars_eq_some_iff {scalars : List Scalar} (hall : ∀ s, s ∈ scalars)
    {name : String} : (scalars.map Converter.ofScalar).find? (fun d => d.name == name) = some c ↔
      ∃ s : Scalar, s.name = name ∧ c = .ofScalar s := by
  rw [List.find?_map, Option.map_eq_some_iff]
  constructor
  · rintro ⟨s, hs, rfl⟩
    have hname := List.find?_some hs
    exact ⟨s, beq_iff_eq.1 hname, rfl⟩
  · rintro ⟨s, rfl, rfl⟩
    cases hs : scalars.find? ((fun d => d.name == s.name) ∘ Converter.ofScalar) with
    | none =>
      have hne := List.find?_eq_none.1 hs s (hall s)
      exact absurd (beq_self_eq_true s.name) hne
    | some t =>
      have hname := List.find?_some hs
      rw [Scalar.name_injective (beq_iff_eq.1 hname)]
      exact ⟨s, rfl, rfl⟩

/-- In the registry of scalars, every scalar type is found under its name, and nothing else is. -/
theorem converter?_builtin_eq_some_iff {name : String} :
    builtin.converter? name = some c ↔ ∃ s : Scalar, s.name = name ∧ c = .ofScalar s :=
  find?_scalars_eq_some_iff Scalar.mem_all

/-- A name is registered as it stands, or it is that of a vector. -/
theorem resolve?_eq (r : Registry) (name : List Char) :
    r.resolve? name = (r.converter? (String.ofList name)).or
      ((elementName? name).bind fun inner => (r.resolve? inner).map Converter.vector) := by
  rw [resolve?]
  split
  · rename_i hc
    rw [hc, Option.some_or]
  · rename_i hc
    rw [hc, Option.none_or]
    split
    · rename_i hinner
      simp only [hinner, Option.bind_some]
    · rename_i hinner
      rw [hinner, Option.bind_none]

/-- Element names are shorter, so what passes from them to the names that hold them is true of every
name. -/
theorem unfolding_induction {motive : List Char → Prop}
    (step : ∀ name, (∀ inner, elementName? name = some inner → motive inner) → motive name)
    (name : List Char) : motive name := by
  induction hn : name.length using Nat.strongRecOn generalizing name with
  | ind n ih =>
    refine step name fun inner hinner => ?_
    exact ih _ (hn ▸ length_lt_of_elementName? hinner) inner rfl

theorem lookup_eq_ok_iff_resolve? {r : Registry} {typeName : String} :
    r.lookup typeName = .ok c ↔ r.resolve? (trim typeName.toList) = some c := by
  rw [lookup]
  split
  · rename_i hc
    rw [hc, Except.ok.injEq, Option.some.injEq]
  · rename_i hnone
    rw [hnone]
    simp

end Registry

/-! ### Vectors -/

/-- The name of an element stands between parentheses behind the word, with blanks between them or
not. -/
theorem elementName?_eq_some_iff {inner : List Char} :
    Registry.elementName? cs = some inner ↔ ∃ between inside : List Char, AllBlank between ∧
      cs = "vector".toList ++ between ++ '(' :: inside ++ [')'] ∧ trim inside = inner ∧
        inner ≠ [] := by
  simp only [Registry.elementName?, Option.bind_eq_bind, Option.bind_eq_some_iff,
    dropStart?_eq_some_iff, dropEnd?_eq_some_iff]
  constructor
  · rintro ⟨behind, rfl, opened, hopened, inside, rfl, h⟩
    obtain ⟨between, hbetween, hbehind⟩ := exists_trimStart behind
    rw [← hbehind, hopened]
    split at h
    · cases h
    · rename_i hne
      obtain rfl := Option.some.inj h
      exact ⟨between, inside, hbetween, by simp, rfl, by simpa using hne⟩
  · rintro ⟨between, inside, hbetween, rfl, rfl, hne⟩
    refine ⟨between ++ '(' :: inside ++ [')'], by simp, inside ++ [')'], ?_, inside, rfl, ?_⟩
    · rw [List.append_assoc, trimStart_append hbetween, List.cons_append,
        trimStart_cons_of_not_isBlank (by decide)]
      rfl
    · exact if_neg (by simpa using hne)

/-! ### Names of the grammar -/

/-- Blanks around a name change nothing. -/
theorem Derives.pad (h : Derives T cs) (hbefore : AllBlank before) (hafter : AllBlank after) :
    Derives T (before ++ cs ++ after) := by
  cases h with
  | scalar s hb ha =>
    have hscalar := Derives.scalar s (hbefore.append hb) (ha.append hafter)
    simpa only [List.append_assoc] using hscalar
  | vector hb hbetween hinner ha =>
    have hvector := Derives.vector (hbefore.append hb) hbetween hinner (ha.append hafter)
    simpa only [List.append_assoc] using hvector

theorem derives_of_trim (h : Derives T (trim cs)) : Derives T cs := by
  obtain ⟨before, after, hbefore, hafter, hcs⟩ := exists_trim cs
  have hpad := h.pad hbefore hafter
  rw [hcs] at hpad
  exact hpad

theorem derives_scalar_name (s : Scalar) : Derives (.scalar s) s.name.toList := by
  have h := Derives.scalar s allBlank_nil allBlank_nil
  rwa [List.nil_append, List.append_nil] at h

/-- A name in parentheses behind the word is that of a vector, with blanks between them or not. -/
theorem Derives.enclose {between inner : List Char} (hbetween : AllBlank between)
    (h : Derives T inner) :
    Derives (.vector T) ("vector".toList ++ between ++ '(' :: inner ++ [')']) := by
  have h := Derives.vector allBlank_nil hbetween h allBlank_nil
  rwa [List.nil_append, List.append_nil] at h

/-- A name without its blanks is the canonical one. -/
theorem Derives.name_eq (h : Derives T cs) :
    cs.filter (fun c => !isBlank c) = T.name.toList := by
  have hblank : ∀ {blanks : List Char}, AllBlank blanks →
      blanks.filter (fun c => !isBlank c) = [] := by
    intro blanks hblanks
    rw [List.filter_eq_nil_iff]
    intro c hc
    rw [hblanks c hc]
    decide
  induction h with
  | scalar s hb ha =>
    have hname : s.name.toList.filter (fun c => !isBlank c) = s.name.toList := by
      rw [List.filter_eq_self]
      intro c hc
      rw [s.name_plain.2.1 c hc]
      rfl
    rw [List.filter_append, List.filter_append, hblank hb, hblank ha, hname, List.nil_append,
      List.append_nil, DeclaredType.name]
  | @vector T _ _ inner _ hb hbetween _ ha ih =>
    have hword : "vector".toList.filter (fun c => !isBlank c) = "vector".toList := by decide
    have hopen : ('(' :: inner).filter (fun c => !isBlank c) = '(' :: T.name.toList := by
      rw [List.filter_cons_of_pos (by decide), ih]
    have hclose : [')'].filter (fun c => !isBlank c) = [')'] := by decide
    rw [DeclaredType.name, List.filter_append, List.filter_append, List.filter_append,
      List.filter_append, List.filter_append, hblank hb, hblank hbetween, hblank ha, hword, hopen,
      hclose]
    simp

/-- The canonical name is a name. -/
theorem derives_name (T : DeclaredType) : Derives T T.name.toList := by
  induction T with
  | scalar s => exact derives_scalar_name s
  | vector element ih =>
    have h := ih.enclose allBlank_nil
    simpa [DeclaredType.name] using h

/-! ### The registry of scalars -/

/-- What the registry makes of a name that it resolves. -/
theorem exists_derives_of_resolve? (h : Registry.builtin.resolve? cs = some c) :
    ∃ T, Derives T cs ∧ c = T.converter := by
  induction cs using Registry.unfolding_induction generalizing c with
  | step cs ih =>
    rw [Registry.resolve?_eq, Option.or_eq_some_iff] at h
    rcases h with h | ⟨_, h⟩
    · obtain ⟨s, hs, rfl⟩ := Registry.converter?_builtin_eq_some_iff.1 h
      have hcs : cs = s.name.toList := by rw [hs, String.toList_ofList]
      rw [hcs]
      exact ⟨.scalar s, derives_scalar_name s, rfl⟩
    · obtain ⟨inner, hinner, h⟩ := Option.bind_eq_some_iff.1 h
      obtain ⟨element, helement, rfl⟩ := Option.map_eq_some_iff.1 h
      obtain ⟨T, hT, rfl⟩ := ih inner hinner helement
      obtain ⟨between, inside, hbetween, rfl, rfl, _⟩ := elementName?_eq_some_iff.1 hinner
      exact ⟨.vector T, (derives_of_trim hT).enclose hbetween, rfl⟩

theorem converter?_vector_eq_none {between inner : List Char} :
    Registry.builtin.converter?
      (String.ofList ("vector".toList ++ between ++ '(' :: inner ++ [')'])) = none := by
  rw [Option.eq_none_iff_forall_ne_some]
  intro c hc
  obtain ⟨s, hs, _⟩ := Registry.converter?_builtin_eq_some_iff.1 hc
  have hdrop : dropStart? "vector".toList s.name.toList =
      some (between ++ '(' :: inner ++ [')']) := by
    rw [dropStart?_eq_some_iff, hs, String.toList_ofList]
    simp only [List.append_assoc]
  rw [s.name_plain.2.2] at hdrop
  cases hdrop

theorem resolve?_nil : Registry.builtin.resolve? [] = none := by
  have hscalar : Registry.builtin.converter? (String.ofList []) = none := by decide
  have hvector : Registry.elementName? [] = none := by decide
  rw [Registry.resolve?_eq, hscalar, hvector]
  rfl

/-- A name of the grammar is resolved, whatever blanks are around it. -/
theorem resolve?_of_derives (h : Derives T cs) :
    Registry.builtin.resolve? (trim cs) = some T.converter := by
  induction h with
  | scalar s hb ha =>
    obtain ⟨hne, hplain, _⟩ := s.name_plain
    have htrim := trim_append hb ha hne (fun c hc => hplain c (List.mem_of_mem_head? hc))
      fun c hc => hplain c (List.mem_of_mem_getLast? hc)
    have hconverter : Registry.builtin.converter? (String.ofList s.name.toList) =
        some (.ofScalar s) :=
      Registry.converter?_builtin_eq_some_iff.2 ⟨s, String.ofList_toList.symm, rfl⟩
    rw [htrim, Registry.resolve?_eq, hconverter]
    rfl
  | @vector T before between inner after hb hbetween hinner ha ih =>
    have htrim : trim (before ++ ("vector".toList ++ between ++ '(' :: inner ++ [')']) ++ after) =
        "vector".toList ++ between ++ '(' :: inner ++ [')'] := by
      refine trim_append hb ha (by simp) (fun c hc => ?_) fun c hc => ?_
      · obtain rfl : 'v' = c := by simpa using hc
        decide
      · rw [Option.mem_def, List.getLast?_concat, Option.some.injEq] at hc
        rw [← hc]
        decide
    have hne : trim inner ≠ [] := by
      intro hnil
      rw [hnil, resolve?_nil] at ih
      cases ih
    rw [htrim, Registry.resolve?_eq, converter?_vector_eq_none, Option.none_or,
      elementName?_eq_some_iff.2 ⟨between, inner, hbetween, rfl, rfl, hne⟩, Option.bind_some, ih]
    rfl

/-- **Names that resolve.** The registry of scalars resolves the names of the grammar, to the
converters of their types. -/
theorem resolve?_builtin_eq_some_iff :
    Registry.builtin.resolve? (trim cs) = some c ↔ ∃ T, Derives T cs ∧ c = T.converter := by
  constructor
  · intro h
    obtain ⟨T, hT, hc⟩ := exists_derives_of_resolve? h
    exact ⟨T, derives_of_trim hT, hc⟩
  · rintro ⟨T, hT, rfl⟩
    exact resolve?_of_derives hT

theorem lookup_eq_ok_iff {typeName : String} :
    Registry.builtin.lookup typeName = .ok c ↔
      ∃ T, Derives T typeName.toList ∧ c = T.converter := by
  rw [← resolve?_builtin_eq_some_iff, Registry.lookup_eq_ok_iff_resolve?]

/-- A look-up fails exactly for other names, and tells the name as it was given. -/
theorem lookup_eq_error_iff {typeName : String} {e : ConversionError} :
    Registry.builtin.lookup typeName = .error e ↔
      (∀ T, ¬ Derives T typeName.toList) ∧ e = .unknownType typeName := by
  rw [Registry.lookup]
  split
  · rename_i hc
    obtain ⟨T, hT, _⟩ := resolve?_builtin_eq_some_iff.1 hc
    simp only [reduceCtorEq, false_iff, not_and]
    intro hnone
    exact absurd hT (hnone T)
  · rename_i hnone
    have hnone : ∀ T, ¬ Derives T typeName.toList := by
      intro T hT
      rw [resolve?_of_derives hT] at hnone
      cases hnone
    rw [Except.error.injEq, eq_comm, and_iff_right hnone]

/-- **Which types are known.** The registry of scalars knows a name exactly if the grammar does.
What it finds has the name without its blanks and the type in C++ that belongs to it, and is found
again under this name. Any other name is refused as it was given, however deep the unknown part
lies. -/
theorem lookup_builtin (typeName : String) :
    (∀ c, Registry.builtin.lookup typeName = .ok c ↔
      ∃ T, Derives T typeName.toList ∧ c = T.converter) ∧
    (∀ e, Registry.builtin.lookup typeName = .error e ↔
      (∀ T, ¬ Derives T typeName.toList) ∧ e = .unknownType typeName) ∧
    ∀ T, Derives T typeName.toList →
      T.converter.name = String.ofList (typeName.toList.filter fun c => !isBlank c) ∧
      T.converter.ccType = T.ccType ∧
      Registry.builtin.lookup T.converter.name = .ok T.converter := by
  refine ⟨fun c => lookup_eq_ok_iff, fun e => lookup_eq_error_iff, fun T hT => ⟨?_, ?_, ?_⟩⟩
  · rw [T.name_converter, hT.name_eq, String.ofList_toList]
  · exact T.ccType_converter
  · rw [T.name_converter]
    exact lookup_eq_ok_iff.2 ⟨T, derives_name T, rfl⟩

/-- A name with blanks wherever they may stand, a no-break space among them. -/
def spacedName : String := "\u00a0vector (vector\t( uint8) ) "

/-- The name is known, as that of vectors of vectors. -/
theorem lookup_builtin_spacedName :
    Derives (.vector (.vector (.scalar (.integer .uint8)))) spacedName.toList ∧
      ∃ c, Registry.builtin.lookup spacedName = .ok c ∧ c.name = "vector(vector(uint8))" ∧
        c.ccType = "std::vector<std::vector<uint8_t>>" ∧
        Registry.builtin.lookup "vector(vector(uint8))" = .ok c := by
  have hscalar : Derives (.scalar (.integer .uint8)) " uint8".toList :=
    @Derives.scalar (.integer .uint8) [' '] [] (by decide) (by decide)
  have hinner : Derives (.vector (.scalar (.integer .uint8))) "vector\t( uint8) ".toList :=
    @Derives.vector _ [] ['\t'] _ [' '] (by decide) (by decide) hscalar (by decide)
  have hname : Derives (.vector (.vector (.scalar (.integer .uint8)))) spacedName.toList := by
    have hparts : spacedName.toList = ['\u00a0'] ++
        ("vector".toList ++ [' '] ++ '(' :: "vector\t( uint8) ".toList ++ [')']) ++ [' '] := by
      decide
    rw [hparts]
    exact .vector (by decide) (by decide) hinner (by decide)
  obtain ⟨hok, _, hderived⟩ := lookup_builtin spacedName
  obtain ⟨hcanonical, hcc, hagain⟩ := hderived _ hname
  have hplain : String.ofList (spacedName.toList.filter fun c => !isBlank c) =
      "vector(vector(uint8))" := by decide
  rw [hcanonical, hplain] at hagain
  exact ⟨hname, _, (hok _).2 ⟨_, hname, rfl⟩, hcanonical.trans hplain, hcc, hagain⟩

end Foundry.Parameter
