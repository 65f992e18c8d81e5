import Foundry.Proofs.Decimal.Numeral
import Foundry.Proofs.Module.Reading

/-!
# The schema of descriptors

`Schema` says which documents describe a module, field by field and in no order, without the steps
of reading one. Fields that it does not mention may be anything.

* `Declaration.exists_ofEntry_iff`: which parameters are read.
* `Module.exists_ofDocument_iff`: which mappings of a kind are read.
* `reads_iff_schema`: a document is read as a module exactly if it follows the schema.
-/

namespace Foundry

open Decimal Parameter Text Yaml

-- A power with a natural exponent is the repeated product.
attribute [local instance (high)] instPowNat

variable {registry : Registry} {path : Path} {document : Node} {kind : Kind} {fields : Entries}
  {a : Attributes} {name : String} {accepts : Node → Prop}

/-! ### Accepted values -/

/-- The field is there, with a value that is accepted. -/
def Given (accepts : Node → Prop) (field : Option Node) : Prop :=
  ∃ n, field = some n ∧ accepts n

/-- The field is absent or null, or its value is accepted. -/
def Omittable (accepts : Node → Prop) (field : Option Node) : Prop :=
  ∀ n, field = some n → n = .null ∨ accepts n

/-- A string, a number or a truth value, without a tag. -/
inductive Textual : Node → Prop
  | str (s : String) : Textual (.str s)
  | bool (b : Bool) : Textual (.bool b)
  | int (i : Int) : Textual (.int i)
  | float (x : Binary64) : Textual (.float x)

/-- A text, or a list of texts without a tag. -/
inductive TextualList : Node → Prop
  | one {n : Node} (h : Textual n) : TextualList n
  | seq {items : List Node} (h : ∀ item ∈ items, Textual item) : TextualList (.seq items)

/-- The characters are an optional sign and digits, which write an integer. -/
def Writes (cs : List Char) (i : Int) : Prop :=
  ∃ (sign : Option Char) (digits : List Char), cs = sign.toList ++ digits ∧
    (∀ c ∈ sign, c = '-' ∨ c = '+') ∧ digits ≠ [] ∧ (∀ d ∈ digits, d.isDigit = true) ∧
    i = if sign = some '-' then -(natOfDigits digits : Int) else natOfDigits digits

/-- The integer has 64 bits. -/
def Fits64 (i : Int) : Prop :=
  -2 ^ (63 : Nat) ≤ i ∧ i < 2 ^ (63 : Nat)

/-- An integer of 64 bits without a tag, or a string that writes one between blanks. -/
inductive Integral : Node → Prop
  | int {i : Int} (fits : Fits64 i) : Integral (.int i)
  | str {s : String} {i : Int} (writes : Writes (trim s.toList) i) (fits : Fits64 i) :
    Integral (.str s)

/-! ### The schema -/

/-- What a parameter holds: a known type with a default of this type, and a description. -/
structure DeclarationSchema (registry : Registry) (fields : Entries) : Prop where
  typed : ∃ typeName converter, (fields.field? "type").bind Node.text? = some typeName ∧
    registry.lookup typeName = .ok converter ∧
    Given (fun n => ∃ literal, converter.convert n = .ok literal) (fields.field? "default")
  description : Given Textual (fields.field? "description")
  advanced : Omittable (fun n => ∃ b, readBoolean n = .ok b) (fields.field? "advanced")

/-- A mapping without a tag, from texts to the mappings of parameters. -/
def ParametersSchema (registry : Registry) (n : Node) : Prop :=
  ∃ es : Entries, n = .map es ∧ ∀ e ∈ es, Textual e.1 ∧
    ∃ fields, e.2.entries? = some fields ∧ DeclarationSchema registry fields

/-- What the mapping of a kind holds. -/
structure KindSchema (registry : Registry) (kind : Kind) (fields : Entries) : Prop where
  identifier : Given Textual ((fields.field? "type").or (fields.field? "name"))
  description : Given Textual (fields.field? "description")
  className : Given Textual (fields.field? "class")
  includes : Given TextualList (fields.field? "include")
  implementation : kind = .component → Given Textual (fields.field? "implementation")
  priority : kind = .component → Omittable Integral (fields.field? "priority")
  discover : kind ≠ .plugin → Omittable Textual (fields.field? "discover")
  parameters : Omittable (ParametersSchema registry) (fields.field? "parameters")

/-- What a document holds: the mapping of one kind, and no key of another kind. -/
def Schema (registry : Registry) (document : Node) : Prop :=
  ∃ top kind fields, document.entries? = some top ∧
    (∀ other : Kind, top.hasField other.key = true ↔ other = kind) ∧
    (top.field? kind.key).bind Node.entries? = some fields ∧ KindSchema registry kind fields

/-! ### Fields -/

theorem given_some {n : Node} : Given accepts (some n) ↔ accepts n :=
  ⟨fun ⟨_, h, ha⟩ => Option.some.inj h ▸ ha, fun h => ⟨n, rfl, h⟩⟩

/-- A field is given as something that a view accepts exactly if the view gives a value for it. -/
theorem given_iff_bind {α : Type} {view : Node → Option α}
    (h : ∀ n, accepts n ↔ ∃ a, view n = some a) (field : Option Node) :
    Given accepts field ↔ ∃ a, field.bind view = some a := by
  cases field with
  | none => simp [Given]
  | some n => simp [Given, h]

theorem Given.hasField (h : Given accepts (fields.field? name)) : fields.hasField name = true := by
  obtain ⟨n, hn, _⟩ := h
  rw [Entries.hasField, hn]
  rfl

theorem omittable_none : Omittable accepts none := nofun

theorem omittable_null : Omittable accepts (some .null) := by
  rintro n ⟨⟩
  exact Or.inl rfl

theorem omittable_some {n : Node} (h : n ≠ .null) : Omittable accepts (some n) ↔ accepts n := by
  constructor
  · intro hn
    exact (hn n rfl).resolve_left h
  · rintro hn _ ⟨⟩
    exact Or.inr hn

theorem textual_iff {n : Node} : Textual n ↔ ∃ s, n.text? = some s := by
  constructor
  · intro h
    cases h <;> exact ⟨_, rfl⟩
  · rintro ⟨s, h⟩
    cases n with
    | str s => exact .str s
    | bool b => exact .bool b
    | int i => exact .int i
    | float x => exact .float x
    | null | seq | map | tagged => cases h

/-- What is no list stands for a list of one. -/
theorem textualList_iff {n : Node} (h : ∀ items, n ≠ .seq items) : TextualList n ↔ Textual n := by
  constructor
  · intro hn
    cases hn with
    | one hn => exact hn
    | seq => exact absurd rfl (h _)
  · exact .one

namespace Attributes

theorem text_eq_ok_iff {s : String} :
    a.text name = .ok s ↔ (a.fields.field? name).bind Node.text? = some s := by
  rw [text]
  cases (a.fields.field? name).bind Node.text? <;> simp

/-- A text is read exactly if the field is given as a scalar that has one. -/
theorem exists_text_iff :
    (∃ s, a.text name = .ok s) ↔ Given Textual (a.fields.field? name) := by
  simp only [text_eq_ok_iff, given_iff_bind fun _ => textual_iff]

theorem exists_optionalText_iff :
    (∃ s, a.optionalText name = .ok s) ↔ Omittable Textual (a.fields.field? name) := by
  unfold optionalText
  split
  · rename_i h
    rw [h]
    exact iff_of_true ⟨none, rfl⟩ omittable_none
  · rename_i h
    rw [h]
    exact iff_of_true ⟨none, rfl⟩ omittable_null
  · rename_i n hnull h
    rw [h, omittable_some hnull, textual_iff]
    cases n.text? <;> simp

theorem exists_itemText_iff {n : Node} {e : DescriptorError} :
    (∃ s, (match n.text? with | some s => Except.ok s | none => .error e) = .ok s) ↔
      Textual n := by
  rw [textual_iff]
  cases n.text? <;> simp

/-- A list of texts is read from a field that is there exactly if it is one scalar or a list of
scalars. -/
theorem exists_texts_iff :
    (∃ texts, a.texts name = .ok texts) ∧ a.fields.hasField name = true ↔
      Given TextualList (a.fields.field? name) := by
  unfold texts Entries.hasField
  split
  · rename_i h
    simp [h, Given]
  · rename_i items h
    rw [h, and_iff_left Option.isSome_some, exists_mapM_eq_ok_iff]
    constructor
    · intro hitems
      exact ⟨_, rfl, .seq fun item hitem => exists_itemText_iff.1 (hitems item hitem)⟩
    · rintro ⟨_, ⟨⟩, hitems⟩ item hitem
      cases hitems with
      | one h => cases h
      | seq hitems => exact exists_itemText_iff.2 (hitems item hitem)
  · rename_i n hseq h
    rw [h, and_iff_left Option.isSome_some, given_some, textualList_iff hseq, textual_iff]
    cases n.text? <;> simp

theorem int64?_eq_some_iff {i j : Int} : int64? i = some j ↔ j = i ∧ Fits64 i := by
  unfold int64?
  split
  · rename_i hfits
    rw [Option.some.injEq, eq_comm]
    exact (and_iff_left_of_imp fun h => h ▸ hfits).symm
  · rename_i hfits
    rw [iff_false_left (nofun : ¬ none = some j)]
    rintro ⟨rfl, h⟩
    exact hfits h

/-- A text is an integer of 64 bits exactly if it writes one: an optional sign, and digits behind
it. -/
theorem int64OfText?_eq_some_iff {cs : List Char} {i : Int} :
    int64OfText? cs = some i ↔ Writes cs i ∧ Fits64 i := by
  constructor
  · intro h
    unfold int64OfText? at h
    dsimp only at h
    split at h
    · cases h
    · rename_i hdigits
      obtain ⟨rfl, hfits⟩ := int64?_eq_some_iff.1 h
      rw [not_or, List.isEmpty_iff, Bool.not_eq_true', Bool.not_eq_false,
        List.all_eq_true] at hdigits
      exact ⟨⟨_, _, (spanSign_append cs).symm, fun c => sign_of_mem_spanSign, hdigits.1, hdigits.2,
        rfl⟩, hfits⟩
  · rintro ⟨⟨sign, digits, rfl, hsign, hne, hdigits, rfl⟩, hfits⟩
    unfold int64OfText?
    rw [spanSign_sign_append_digits hsign hdigits]
    dsimp only
    rw [if_neg, int64?_eq_some_iff]
    · exact ⟨rfl, hfits⟩
    · rw [not_or, List.isEmpty_iff, Bool.not_eq_true', Bool.not_eq_false, List.all_eq_true]
      exact ⟨hne, hdigits⟩

theorem integral_int_iff {i : Int} :
    Integral (.int i) ↔ ∃ j, int64? i = some j := by
  simp only [int64?_eq_some_iff, exists_eq_left]
  constructor
  · rintro ⟨h⟩
    exact h
  · exact .int

theorem integral_str_iff {s : String} :
    Integral (.str s) ↔ ∃ i, int64OfText? (trim s.toList) = some i := by
  simp only [int64OfText?_eq_some_iff]
  constructor
  · rintro ⟨h⟩
    exact ⟨_, ‹_›, ‹_›⟩
  · rintro ⟨i, hwrites, hfits⟩
    exact .str hwrites hfits

/-- An integer is read exactly if the field is absent, null, or an integer or the text of one, of 64
bits. -/
theorem exists_integer_iff :
    (∃ i, a.integer name = .ok i) ↔ Omittable Integral (a.fields.field? name) := by
  unfold integer
  dsimp only
  split
  · rename_i h
    rw [h]
    exact iff_of_true ⟨0, rfl⟩ omittable_none
  · rename_i h
    rw [h]
    exact iff_of_true ⟨0, rfl⟩ omittable_null
  · rename_i i h
    rw [h, omittable_some (by intro h; cases h), integral_int_iff]
    cases int64? i <;> simp
  · rename_i s h
    rw [h, omittable_some (by intro h; cases h), integral_str_iff]
    cases int64OfText? (trim s.toList) <;> simp
  · rename_i n hnull hint hstr h
    rw [h, omittable_some hnull]
    constructor
    · rintro ⟨_, ⟨⟩⟩
    · intro hn
      cases hn with
      | int => exact absurd rfl (hint _)
      | str => exact absurd rfl (hstr _)

theorem require_eq_ok_iff {absent : List String} {u : Unit} :
    a.require absent = .ok u ↔ absent = [] := by
  rw [require, ← List.isEmpty_iff]
  split <;> simp [*]

end Attributes

/-! ### Parameters -/

/-- **Declarations that are read.** An entry declares a parameter exactly if it fulfils the schema
of a declaration. -/
theorem Declaration.exists_ofEntry_iff {entry : Node} :
    (∃ d, Declaration.ofEntry registry path name entry = .ok d) ↔
      ∃ fields, entry.entries? = some fields ∧ DeclarationSchema registry fields := by
  unfold Declaration.ofEntry
  dsimp only
  split
  · rename_i hnone
    simp [hnone]
  · rename_i fields hfields
    simp only [hfields, Option.some.injEq, exists_eq_left']
    simp only [exists_bind_eq_ok_iff, Attributes.require_eq_ok_iff, mapError_eq_ok_iff,
      exists_const]
    constructor
    · rintro ⟨hmissing, typeName, htype, _, hdescription, converter, hlookup, default, hdefault,
        hadvanced⟩
      rw [missing_eq_nil_iff] at hmissing
      refine ⟨⟨typeName, converter, Attributes.text_eq_ok_iff.1 htype, hlookup, ?_⟩,
        Attributes.exists_text_iff.1 ⟨_, hdescription⟩, ?_⟩
      -- The default is required, so it is there, and the converter of the type has accepted it.
      · obtain ⟨n, hn⟩ := Option.isSome_iff_exists.1 (hmissing "default" (by decide))
        rw [hn] at hdefault ⊢
        exact given_some.2 ⟨default, hdefault⟩
      · intro n hn
        rw [hn] at hadvanced
        split at hadvanced
        · cases ‹some n = none›
        · exact Or.inl (Option.some.inj ‹_›)
        · simp only [exists_bind_eq_ok_iff, mapError_eq_ok_iff] at hadvanced
          obtain ⟨b, hb, _⟩ := hadvanced
          exact Or.inr ⟨b, Option.some.inj ‹_› ▸ hb⟩
    · rintro ⟨⟨typeName, converter, htype, hlookup, hdefault⟩, hdescription, hadvanced⟩
      have htyped : Given Textual (fields.field? "type") :=
        (given_iff_bind (fun _ => textual_iff) _).2 ⟨typeName, htype⟩
      obtain ⟨text, htext⟩ :=
        Attributes.exists_text_iff (a := ⟨fields, path, .parameter name⟩).2 hdescription
      -- Now the steps of the reader in their order, each from its part of the schema.
      refine ⟨missing_eq_nil_iff.2 ?_, typeName, Attributes.text_eq_ok_iff.2 htype, text, htext,
        converter, hlookup, ?_⟩
      · simp only [declarationRequired, List.forall_mem_cons]
        exact ⟨htyped.hasField, hdefault.hasField, hdescription.hasField, List.forall_mem_nil _⟩
      · obtain ⟨n, hn, literal, hliteral⟩ := hdefault
        rw [hn]
        refine ⟨literal, hliteral, ?_⟩
        split
        · exact ⟨_, rfl⟩
        · exact ⟨_, rfl⟩
        · rename_i value hnull hvalue
          obtain ⟨b, hb⟩ := (omittable_some hnull).1 (hvalue ▸ hadvanced)
          rw [hb]
          exact ⟨_, rfl⟩

/-- The parameters of a module are read exactly if they fulfil their schema. -/
theorem Attributes.exists_declarations_iff :
    (∃ ds, a.declarations registry = .ok ds) ↔
      Omittable (ParametersSchema registry) (a.fields.field? parametersKey) := by
  unfold Attributes.declarations
  split
  · rename_i h
    rw [h]
    exact iff_of_true ⟨[], rfl⟩ omittable_none
  · rename_i h
    rw [h]
    exact iff_of_true ⟨[], rfl⟩ omittable_null
  · rename_i es h
    rw [h, omittable_some (by intro h; cases h), exists_mapM_eq_ok_iff, ParametersSchema]
    simp only [Node.map.injEq, exists_eq_left']
    refine forall₂_congr fun ⟨key, entry⟩ _ => ?_
    dsimp only
    -- The key is the name of the parameter, so it has to have a text.
    cases hkey : key.text? with
    | none => simp [textual_iff, hkey]
    | some name =>
      rw [and_iff_right (textual_iff.2 ⟨name, hkey⟩)]
      exact Declaration.exists_ofEntry_iff
  · rename_i n hnull hmap h
    rw [h, omittable_some hnull]
    constructor
    · rintro ⟨_, ⟨⟩⟩
    · rintro ⟨es, rfl, _⟩
      exact absurd rfl (hmap es)

/-! ### Kinds and documents -/

/-- Nothing is missing exactly if there is a `type` or a `name` and everything the kind requires. -/
theorem missingAttributes_eq_nil_iff :
    missingAttributes kind fields = [] ↔
      (fields.hasField "type" = true ∨ fields.hasField "name" = true) ∧
        ∀ name ∈ kind.required, fields.hasField name = true := by
  rw [missingAttributes, List.append_eq_nil_iff, missing_eq_nil_iff, ← Bool.or_eq_true]
  split <;> simp [*]

/-- The identifier is the `type` where there is one, and the `name` otherwise. -/
theorem identifier_iff :
    (fields.hasField "type" = true ∨ fields.hasField "name" = true) ∧
        Given Textual (fields.field? (if fields.hasField "type" = true then "type" else "name")) ↔
      Given Textual ((fields.field? "type").or (fields.field? "name")) := by
  cases htype : fields.field? "type" with
  | none =>
    rw [Entries.hasField, htype, Option.none_or, and_iff_right_of_imp fun h => Or.inr h.hasField]
    rfl
  | some n =>
    have hfield : fields.hasField "type" = true := by
      rw [Entries.hasField, htype, Option.isSome_some]
    rw [if_pos hfield, htype, and_iff_right (Or.inl hfield), Option.some_or]

/-- What is required of every kind, and what of components only. -/
theorem Kind.forall_required_iff {P : String → Prop} :
    (∀ name ∈ kind.required, P name) ↔
      P "description" ∧ P "class" ∧ P "include" ∧ (kind = .component → P "implementation") := by
  cases kind <;> simp [Kind.required]

/-- The schema of a kind in the order in which its fields are looked at. -/
theorem kindSchema_iff (path : Path) (place : Place) :
    KindSchema registry kind fields ↔
      ((fields.hasField "type" = true ∨ fields.hasField "name" = true) ∧
        ∀ name ∈ kind.required, fields.hasField name = true) ∧
      Given Textual (fields.field? (if fields.hasField "type" = true then "type" else "name")) ∧
      (kind = .component → Given Textual (fields.field? "implementation") ∧
        Omittable Integral (fields.field? "priority")) ∧
      (kind ≠ .plugin → Omittable Textual (fields.field? "discover")) ∧
      Omittable (ParametersSchema registry) (fields.field? parametersKey) ∧
      Given Textual (fields.field? "description") ∧ Given Textual (fields.field? "class") ∧
      ∃ texts, (⟨fields, path, place⟩ : Attributes).texts "include" = .ok texts := by
  rw [Kind.forall_required_iff]
  constructor
  · intro h
    obtain ⟨hnamed, hidentifier⟩ := identifier_iff.2 h.identifier
    obtain ⟨htexts, hincludes⟩ :=
      Attributes.exists_texts_iff (a := ⟨fields, path, place⟩).2 h.includes
    exact ⟨⟨hnamed, h.description.hasField, h.className.hasField, hincludes,
        fun hkind => (h.implementation hkind).hasField⟩,
      hidentifier, fun hkind => ⟨h.implementation hkind, h.priority hkind⟩, h.discover,
      h.parameters, h.description, h.className, htexts⟩
  · rintro ⟨⟨hnamed, _, _, hincludes, _⟩, hidentifier, hcomponent, hdiscover, hparameters,
      hdescription, hclass, htexts⟩
    exact {
      identifier := identifier_iff.1 ⟨hnamed, hidentifier⟩
      description := hdescription
      className := hclass
      includes := Attributes.exists_texts_iff.1 ⟨htexts, hincludes⟩
      implementation hkind := (hcomponent hkind).1
      priority hkind := (hcomponent hkind).2
      discover := hdiscover
      parameters := hparameters }

/-- Behind the classification, a document is read exactly if its fields fulfil the schema of the
kind. -/
theorem Module.exists_ofDocument_iff (h : classify path document = .ok (kind, fields)) :
    (∃ m, Module.ofDocument registry path document = .ok m) ↔ KindSchema registry kind fields := by
  rw [kindSchema_iff path (.module kind)]
  unfold Module.ofDocument
  rw [exists_bind_eq_ok_iff]
  simp only [h, Except.ok.injEq, exists_eq_left']
  -- What is read has no influence on whether the rest is, so the steps come apart.
  cases kind <;>
    simp only [exists_bind_eq_ok_iff, exists_pure_eq_ok_iff, exists_and_right, exists_const,
      Attributes.require_eq_ok_iff, missingAttributes_eq_nil_iff, Attributes.exists_text_iff,
      Attributes.exists_integer_iff, Attributes.exists_optionalText_iff,
      Attributes.exists_declarations_iff, reduceCtorEq, if_true, if_false, ne_eq,
      not_true_eq_false, not_false_eq_true, forall_const, IsEmpty.forall_iff, true_and, and_true,
      and_assoc]

/-- **The documents that describe a module.** -/
theorem reads_iff_schema (registry : Registry) (path : Path) (document : Node) :
    (∃ m, Module.ofDocument registry path document = .ok m) ↔ Schema registry document := by
  constructor
  · intro hread
    obtain ⟨⟨kind, fields⟩, hclassify, _⟩ := exists_bind_eq_ok_iff.1 hread
    obtain ⟨top, htop, hkind, hfields⟩ := classify_eq_ok_iff.1 hclassify
    have hschema := (Module.exists_ofDocument_iff hclassify).1 hread
    exact ⟨top, kind, fields, htop, hkind, hfields, hschema⟩
  · rintro ⟨top, kind, fields, htop, hkind, hfields, hschema⟩
    have hclassify : classify path document = .ok (kind, fields) :=
      classify_eq_ok_iff.2 ⟨top, htop, hkind, hfields⟩
    exact (Module.exists_ofDocument_iff hclassify).2 hschema

end Foundry
