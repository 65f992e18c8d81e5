import Foundry.Proofs.Module.Schema
import Mathlib.Data.List.Perm.Basic

/-!
# Reports of missing attributes

A report of missing attributes is complete. It has all names that the mapping lacks, in a fixed
order (`Selects`), and nothing else that may be wrong with a document is told before those of its
kind. Parameters are reached if all that is read before them is as it has to be (`Reached`). Then
the first one that is refused decides what is told of the document.

* `selects_missingAttributes`, `selects_missing`: the names of a report.
* `Reached.ofDocument_eq`: how the parameters decide.
* `missingAttributes_told`: which reports there are.
-/

namespace Foundry

open Parameter Yaml

variable {registry : Registry} {path : Path} {document : Node} {kind : Kind} {fields es : Entries}
  {a : Attributes} {name : String} {names : List String} {err : DescriptorError}

/-! ### What is missing -/

/-- The attributes of a module that may be told to be missing, in order. -/
def attributeOrder : List String :=
  ["type", "description", "class", "include", "implementation"]

/-- The mapping of a kind lacks an attribute; `type` stands for itself and for `name`. -/
inductive Lacks (kind : Kind) (fields : Entries) : String → Prop
  | identifier (htype : fields.field? "type" = none) (hname : fields.field? "name" = none) :
    Lacks kind fields "type"
  | common {name : String} (hname : name ∈ ["description", "class", "include"])
    (h : fields.field? name = none) : Lacks kind fields name
  | implementation (hkind : kind = .component) (h : fields.field? "implementation" = none) :
    Lacks kind fields "implementation"

/-- The names of which something holds, taken from a list in its order. -/
structure Selects (order : List String) (P : String → Prop) (names : List String) : Prop where
  sublist : names.Sublist order
  mem : ∀ name, name ∈ names ↔ name ∈ order ∧ P name

/-- There is one selection only. -/
theorem Selects.unique {order names' : List String} {P : String → Prop} (horder : order.Nodup)
    (h : Selects order P names) (h' : Selects order P names') : names = names' := by
  have hperm : names.Perm names' := by
    rw [List.perm_ext_iff_of_nodup (horder.sublist h.sublist) (horder.sublist h'.sublist)]
    intro name
    rw [h.mem, h'.mem]
  exact (List.Nodup.perm_iff_eq_of_sublist horder h.sublist h'.sublist).1 hperm

theorem mem_missing_iff :
    name ∈ missing fields names ↔ name ∈ names ∧ fields.field? name = none := by
  rw [missing, List.mem_filter, Bool.not_eq_eq_eq_not, Bool.not_true, Entries.hasField,
    Option.isSome_eq_false_iff, Option.isNone_iff_eq_none]

theorem selects_missing (fields : Entries) (names : List String) :
    Selects names (fun name => fields.field? name = none) (missing fields names) where
  sublist := List.filter_sublist
  mem _ := mem_missing_iff

theorem Kind.mem_required_iff : name ∈ kind.required ↔
    name ∈ ["description", "class", "include"] ∨ kind = .component ∧ name = "implementation" := by
  cases kind <;> simp [required, or_assoc]

/-- What is reported missing is what the kind lacks. -/
theorem mem_missingAttributes_iff :
    name ∈ missingAttributes kind fields ↔ Lacks kind fields name := by
  -- An identifier is missing if there is neither a `type` nor a `name`.
  have hidentifier : (fields.hasField "type" || fields.hasField "name") = false ↔
      fields.field? "type" = none ∧ fields.field? "name" = none := by
    rw [Bool.or_eq_false_iff, Entries.hasField, Entries.hasField]
    simp only [Option.isSome_eq_false_iff, Option.isNone_iff_eq_none]
  rw [missingAttributes, List.mem_append, mem_missing_iff, Kind.mem_required_iff]
  constructor
  · rintro (h | ⟨hname | ⟨hkind, rfl⟩, hnone⟩)
    · split at h
      · exact absurd h List.not_mem_nil
      · rename_i hnamed
        obtain rfl := List.mem_singleton.1 h
        obtain ⟨htype, hname⟩ := hidentifier.1 (Bool.eq_false_iff.2 hnamed)
        exact .identifier htype hname
    · exact .common hname hnone
    · exact .implementation hkind hnone
  · intro h
    cases h with
    | identifier htype hname =>
      rw [hidentifier.2 ⟨htype, hname⟩]
      exact Or.inl (List.mem_singleton_self _)
    | common hname h => exact Or.inr ⟨Or.inl hname, h⟩
    | implementation hkind h => exact Or.inr ⟨Or.inr ⟨hkind, rfl⟩, h⟩

theorem Lacks.mem_attributeOrder (h : Lacks kind fields name) : name ∈ attributeOrder := by
  cases h with
  | identifier => decide
  | common hname =>
    have hcommon : ["description", "class", "include"].Sublist attributeOrder := by decide
    exact hcommon.subset hname
  | implementation => decide

/-- **The report on a kind** has what the kind lacks, in order. -/
theorem selects_missingAttributes (kind : Kind) (fields : Entries) :
    Selects attributeOrder (Lacks kind fields) (missingAttributes kind fields) where
  sublist := by
    have hidentifier : (if fields.hasField "type" || fields.hasField "name" then [] else
        ["type"]).Sublist ["type"] := by
      split
      · exact List.nil_sublist _
      · exact List.Sublist.refl _
    have hrequired : kind.required.Sublist
        ["description", "class", "include", "implementation"] := by
      cases kind <;> decide
    exact hidentifier.append (List.filter_sublist.trans hrequired)
  mem _ := by
    rw [mem_missingAttributes_iff, iff_and_self]
    exact Lacks.mem_attributeOrder

theorem missingAttributes_eq_nil_iff_not_lacks :
    missingAttributes kind fields = [] ↔ ∀ name, ¬ Lacks kind fields name := by
  simp only [List.eq_nil_iff_forall_not_mem, mem_missingAttributes_iff]

namespace Attributes

theorem require_of_ne_nil (h : names ≠ []) :
    a.require names = .error (.missingAttributes a.path a.place names) := by
  rw [require, if_neg (mt List.isEmpty_iff.1 h)]

/-- A check for missing attributes fails exactly if there are some, and it tells them all. -/
theorem require_eq_error_iff :
    a.require names = .error err ↔ names ≠ [] ∧ err = .missingAttributes a.path a.place names := by
  by_cases h : names = []
  · rw [h]
    exact iff_of_false nofun (fun h => absurd rfl h.1)
  · rw [require_of_ne_nil h, and_iff_right h, Except.error.injEq, eq_comm]

/-! ### What is told of attributes that are there -/

/-- A text that is not read is refused at its own field. -/
theorem text_eq_error (h : a.text name = .error err) : ∃ fault, err = a.refuse name fault := by
  unfold text at h
  split at h
  · cases h
  · exact ⟨_, (Except.error.inj h).symm⟩

theorem optionalText_eq_error (h : a.optionalText name = .error err) :
    ∃ fault, err = a.refuse name fault := by
  unfold optionalText at h
  split at h
  · cases h
  · cases h
  · split at h
    · cases h
    · exact ⟨_, (Except.error.inj h).symm⟩

theorem texts_eq_error (h : a.texts name = .error err) : ∃ fault, err = a.refuse name fault := by
  unfold texts at h
  split at h
  · cases h
  · obtain ⟨item, _, h⟩ := exists_of_mapM_eq_error h
    split at h
    · cases h
    · exact ⟨_, (Except.error.inj h).symm⟩
  · split at h
    · cases h
    · exact ⟨_, (Except.error.inj h).symm⟩

theorem integer_eq_error (h : a.integer name = .error err) :
    ∃ fault, err = a.refuse name fault := by
  unfold integer at h
  dsimp only at h
  split at h
  · cases h
  · cases h
  · split at h
    · cases h
    · exact ⟨_, (Except.error.inj h).symm⟩
  · split at h
    · cases h
    · exact ⟨_, (Except.error.inj h).symm⟩
  · exact ⟨_, (Except.error.inj h).symm⟩

/-- What is read for the role of a kind is refused at a field of it. -/
theorem role_eq_error (h : a.role kind = .error err) : ∃ name fault, err = a.refuse name fault := by
  cases kind with
  | component =>
    rcases bind_eq_error_iff.1 h with h | ⟨_, _, h⟩
    · exact ⟨_, text_eq_error h⟩
    · rcases bind_eq_error_iff.1 h with h | ⟨_, _, h⟩
      · exact ⟨_, integer_eq_error h⟩
      · cases h
  | plugin | backend => cases h

/-- What is read before the parameters is refused at a field, never as missing. -/
theorem head_eq_error (h : a.head kind = .error err) : ∃ name fault, err = a.refuse name fault := by
  rcases bind_eq_error_iff.1 h with h | ⟨_, _, h⟩
  · exact ⟨_, text_eq_error h⟩
  rcases bind_eq_error_iff.1 h with h | ⟨_, _, h⟩
  · exact role_eq_error h
  rcases bind_eq_error_iff.1 h with h | ⟨_, _, h⟩
  · unfold discover at h
    split at h
    · cases h
    · exact ⟨_, optionalText_eq_error h⟩
  · cases h

/-- What is read behind the parameters is refused at one of three fields. -/
theorem rest_eq_error (h : a.rest = .error err) :
    ∃ name ∈ ["description", "class", "include"], ∃ fault, err = a.refuse name fault := by
  rcases bind_eq_error_iff.1 h with h | ⟨_, _, h⟩
  · exact ⟨_, by decide, text_eq_error h⟩
  rcases bind_eq_error_iff.1 h with h | ⟨_, _, h⟩
  · exact ⟨_, by decide, text_eq_error h⟩
  rcases bind_eq_error_iff.1 h with h | ⟨_, _, h⟩
  · exact ⟨_, by decide, texts_eq_error h⟩
  · cases h

end Attributes

/-! ### Parameters -/

/-- What the attributes of a parameter are read with, once they are there. -/
theorem Attributes.text_ne_missing {p : Path} {place : Place} :
    a.text name ≠ .error (.missingAttributes p place names) := by
  intro h
  obtain ⟨_, h⟩ := text_eq_error h
  cases h

/-- A value or a type that is refused is no missing attribute. -/
theorem converting_ne_missing {α : Type} {x : Except ConversionError α} {p : Path} {place : Place} :
    x.mapError (DescriptorError.invalidParameter path name) ≠
      .error (.missingAttributes p place names) := by
  intro h
  obtain ⟨_, _, h⟩ := mapError_eq_error_iff.1 h
  cases h

/-- **The report on a parameter** is made before anything else of its mapping is looked at, and for
nothing else. -/
theorem Declaration.ofEntry_eq_missing_iff {entry : Node} {p : Path} {place : Place} :
    Declaration.ofEntry registry path name entry = .error (.missingAttributes p place names) ↔
      p = path ∧ place = .parameter name ∧ ∃ fields, entry.entries? = some fields ∧
        names = missing fields declarationRequired ∧ names ≠ [] := by
  unfold Declaration.ofEntry
  dsimp only
  split
  · rename_i hnone
    simp [hnone]
  · rename_i fields hfields
    simp only [hfields, Option.some.injEq, exists_eq_left']
    constructor
    · intro h
      rcases bind_eq_error_iff.1 h with h | ⟨_, _, h⟩
      · obtain ⟨hne, h⟩ := Attributes.require_eq_error_iff.1 h
        obtain ⟨rfl, rfl, rfl⟩ := DescriptorError.missingAttributes.inj h
        exact ⟨rfl, rfl, rfl, hne⟩
      · -- All other steps fail with other errors.
        refine absurd h (bind_ne_error Attributes.text_ne_missing fun typeName => ?_)
        refine bind_ne_error Attributes.text_ne_missing fun description => ?_
        refine bind_ne_error converting_ne_missing fun converter => ?_
        refine bind_ne_error converting_ne_missing fun default => ?_
        split
        · exact nofun
        · exact nofun
        · exact bind_ne_error converting_ne_missing fun _ => nofun
    · rintro ⟨rfl, rfl, rfl, hne⟩
      rw [Attributes.require_of_ne_nil hne]
      rfl

/-- A report that is made when an entry of `parameters` is read is about the entry's parameter. -/
theorem Attributes.declaration_eq_missing_iff {e : Node × Node} {p : Path} {place : Place} :
    a.declaration registry e = .error (.missingAttributes p place names) ↔
      p = a.path ∧ ∃ name fields, e.1.text? = some name ∧ e.2.entries? = some fields ∧
        place = .parameter name ∧ names = missing fields declarationRequired ∧ names ≠ [] := by
  unfold declaration
  split
  · rename_i name hname
    rw [Declaration.ofEntry_eq_missing_iff]
    constructor
    · rintro ⟨rfl, rfl, fields, hfields, rfl, hne⟩
      exact ⟨rfl, name, fields, hname, hfields, rfl, rfl, hne⟩
    · rintro ⟨rfl, other, fields, hother, hfields, rfl, rfl, hne⟩
      obtain rfl := Option.some.inj (hname.symm.trans hother)
      exact ⟨rfl, rfl, fields, hfields, rfl, hne⟩
  · rename_i hnone
    constructor
    · intro h
      cases h
    · rintro ⟨_, name, _, hname, _⟩
      rw [hnone] at hname
      cases hname

/-! ### The order of reading -/

/-- What is read before the parameters of a kind is as it has to be. -/
structure HeadSchema (kind : Kind) (fields : Entries) : Prop where
  identifier : Given Textual ((fields.field? "type").or (fields.field? "name"))
  implementation : kind = .component → Given Textual (fields.field? "implementation")
  priority : kind = .component → Omittable Integral (fields.field? "priority")
  discover : kind ≠ .plugin → Omittable Textual (fields.field? "discover")

/-- The entries of `parameters` are reached: nothing is missing, and all that is read before them is
as it has to be. -/
structure Reached (path : Path) (document : Node) (kind : Kind) (fields es : Entries) : Prop where
  classified : classify path document = .ok (kind, fields)
  complete : ∀ name, ¬ Lacks kind fields name
  head : HeadSchema kind fields
  parameters : fields.field? parametersKey = some (.map es)

/-- The first entry that is refused, and with what. -/
def Attributes.FirstRefused (a : Attributes) (registry : Registry) (es : Entries) (e : Node × Node)
    (err : DescriptorError) : Prop :=
  ∃ before after, es = before ++ e :: after ∧
    (∀ b ∈ before, ∃ d, a.declaration registry b = .ok d) ∧ a.declaration registry e = .error err

theorem Attributes.FirstRefused.refused {e : Node × Node} (h : a.FirstRefused registry es e err) :
    a.declaration registry e = .error err := by
  obtain ⟨_, _, _, _, he⟩ := h
  exact he

/-- Parameters that are not read are refused as a whole, or over the first entry that is. -/
theorem Attributes.declarations_eq_error (h : a.declarations registry = .error err) :
    (∃ fault, err = a.refuse parametersKey fault) ∨
      ∃ es e, a.fields.field? parametersKey = some (.map es) ∧
        a.FirstRefused registry es e err := by
  unfold declarations at h
  split at h
  · cases h
  · cases h
  · rename_i es hes
    have hread : es.mapM (a.declaration registry) = .error err := h
    obtain ⟨before, e, after, hsplit, hbefore, he⟩ := mapM_eq_error_iff.1 hread
    exact Or.inr ⟨es, e, hes, before, after, hsplit, hbefore, he⟩
  · exact Or.inl ⟨_, (Except.error.inj h).symm⟩

/-- Components alone have fields for their role, and these have to be as the schema says. -/
theorem Attributes.exists_role_iff : (∃ role, a.role kind = .ok role) ↔
    (kind = .component → Given Textual (a.fields.field? "implementation") ∧
      Omittable Integral (a.fields.field? "priority")) := by
  cases kind with
  | component =>
    simp only [role, exists_bind_eq_ok_iff, exists_pure_eq_ok_iff, exists_and_right, and_true,
      exists_text_iff, exists_integer_iff, forall_const]
  | plugin | backend =>
    refine iff_of_true ⟨_, rfl⟩ fun hkind => ?_
    cases hkind

theorem Attributes.exists_discover_iff : (∃ discover, a.discover kind = .ok discover) ↔
    (kind ≠ .plugin → Omittable Textual (a.fields.field? "discover")) := by
  unfold discover
  split
  · rename_i hkind
    exact iff_of_true ⟨none, rfl⟩ (absurd hkind)
  · rename_i hkind
    rw [exists_optionalText_iff, forall_prop_of_true hkind]

/-- If nothing is missing, all that stands before the parameters is read exactly if it fulfils its
schema. -/
theorem Attributes.exists_head_iff (h : missingAttributes kind a.fields = []) :
    (∃ x, a.head kind = .ok x) ↔ HeadSchema kind a.fields := by
  have hnamed := (missingAttributes_eq_nil_iff.1 h).1
  have hidentifier := @identifier_iff a.fields
  rw [and_iff_right hnamed] at hidentifier
  simp only [head, exists_bind_eq_ok_iff, exists_pure_eq_ok_iff, exists_and_right, and_true,
    exists_text_iff, exists_role_iff, exists_discover_iff, hidentifier]
  constructor
  · rintro ⟨hid, hrole, hdiscover⟩
    exact ⟨hid, fun hkind => (hrole hkind).1, fun hkind => (hrole hkind).2, hdiscover⟩
  · intro hhead
    exact ⟨hhead.identifier, fun hkind => ⟨hhead.implementation hkind, hhead.priority hkind⟩,
      hhead.discover⟩

/-- **Parameters decide** what becomes of a document, once they are reached: they are read in the
order of the document, and before anything else. -/
theorem Reached.ofDocument_eq (h : Reached path document kind fields es) (registry : Registry) :
    ∃ identifier role discover, Module.ofDocument registry path document = (do
      let a : Attributes := ⟨fields, path, .module kind⟩
      let parameters ← es.mapM (a.declaration registry)
      let (description, className, includes) ← a.rest
      pure
        { source := path, identifier, description := escapeBreaks description, className, includes
          discover, parameters, role }) := by
  have hcomplete : missingAttributes kind fields = [] :=
    missingAttributes_eq_nil_iff_not_lacks.2 h.complete
  obtain ⟨⟨identifier, role, discover⟩, hhead⟩ :=
    (Attributes.exists_head_iff (a := ⟨fields, path, .module kind⟩) hcomplete).2 h.head
  refine ⟨identifier, role, discover, ?_⟩
  rw [ofDocument_eq_bind h.classified, hcomplete]
  dsimp only
  rw [hhead, Attributes.declarations_of_map h.parameters]
  rfl

/-- The first parameter that is refused decides what is told of the document. -/
theorem Reached.ofDocument_of_first {e : Node × Node} (h : Reached path document kind fields es)
    (hfirst : Attributes.FirstRefused ⟨fields, path, .module kind⟩ registry es e err) :
    Module.ofDocument registry path document = .error err := by
  obtain ⟨before, after, hsplit, hbefore, he⟩ := hfirst
  obtain ⟨_, _, _, heq⟩ := h.ofDocument_eq registry
  rw [heq]
  exact bind_eq_error_iff.2 (Or.inl (mapM_eq_error_iff.2 ⟨before, e, after, hsplit, hbefore, he⟩))

/-- Each entry that is reached gives one parameter, in its place. -/
theorem Reached.parameters_eq {m : Module} (h : Reached path document kind fields es)
    (hm : Module.ofDocument registry path document = .ok m) :
    List.Forall₂ (fun e d => Attributes.declaration ⟨fields, path, .module kind⟩ registry e = .ok d)
      es m.parameters := by
  obtain ⟨_, _, _, heq⟩ := h.ofDocument_eq registry
  rw [heq] at hm
  obtain ⟨ds, hds, hm⟩ := bind_eq_ok_iff.1 hm
  obtain ⟨_, _, hm⟩ := bind_eq_ok_iff.1 hm
  rw [← Except.ok.inj hm]
  exact mapM_eq_ok_iff.1 hds

/-- If no parameter is refused, only an attribute that is read after them can be. -/
theorem Reached.eq_refuse_of_accepted (h : Reached path document kind fields es)
    (haccepted : ∀ e ∈ es, ∃ d,
      Attributes.declaration ⟨fields, path, .module kind⟩ registry e = .ok d)
    (herr : Module.ofDocument registry path document = .error err) :
    ∃ name ∈ ["description", "class", "include"], ∃ fault,
      err = Attributes.refuse ⟨fields, path, .module kind⟩ name fault := by
  obtain ⟨_, _, _, heq⟩ := h.ofDocument_eq registry
  obtain ⟨_, hds⟩ := exists_mapM_eq_ok_iff.2 haccepted
  rw [heq] at herr
  -- The parameters are read, so the error comes behind them.
  rcases bind_eq_error_iff.1 herr with herr | ⟨_, _, herr⟩
  · rw [hds] at herr
    cases herr
  rcases bind_eq_error_iff.1 herr with herr | ⟨_, _, herr⟩
  · exact Attributes.rest_eq_error herr
  · cases herr

/-- A document that does not declare one kind is refused for this. -/
theorem classify_eq_error (h : classify path document = .error err) :
    ∃ fault, err = .invalidKind path fault := by
  unfold classify at h
  dsimp only at h
  split at h
  · exact ⟨_, (Except.error.inj h).symm⟩
  · split at h
    · exact ⟨_, (Except.error.inj h).symm⟩
    · split at h
      · cases h
      · exact ⟨_, (Except.error.inj h).symm⟩
    · exact ⟨_, (Except.error.inj h).symm⟩

/-! ### Reports -/

/-- A report of missing attributes that is due: on the kind, if it lacks some, and else on the first
parameter that is refused, if it lacks some. -/
inductive Report (registry : Registry) (path : Path) (document : Node) :
    Place → List String → Prop
  | module {kind : Kind} {fields : Entries} {names : List String}
    (classified : classify path document = .ok (kind, fields))
    (lacks : ∃ name, Lacks kind fields name)
    (selects : Selects attributeOrder (Lacks kind fields) names) :
    Report registry path document (.module kind) names
  | parameter {kind : Kind} {fields es entry : Entries} {e : Node × Node} {name : String}
    {names : List String} (reached : Reached path document kind fields es)
    (first : Attributes.FirstRefused ⟨fields, path, .module kind⟩ registry es e
      (.missingAttributes path (.parameter name) names))
    (named : e.1.text? = some name) (read : e.2.entries? = some entry)
    (lacks : ∃ key ∈ declarationRequired, entry.field? key = none)
    (selects : Selects declarationRequired (fun key => entry.field? key = none) names) :
    Report registry path document (.parameter name) names

theorem exists_lacking_iff {names : List String} :
    (∃ key ∈ names, fields.field? key = none) ↔ missing fields names ≠ [] := by
  rw [ne_eq, List.eq_nil_iff_forall_not_mem, not_forall_not]
  simp only [mem_missing_iff]

/-- **The kind first.** What the kind lacks is reported before any field is read. -/
theorem ofDocument_of_lacks (h : classify path document = .ok (kind, fields))
    (hlacks : ∃ name, Lacks kind fields name) : Module.ofDocument registry path document =
      .error (.missingAttributes path (.module kind) (missingAttributes kind fields)) := by
  have hne : missingAttributes kind fields ≠ [] := by
    rw [ne_eq, missingAttributes_eq_nil_iff_not_lacks]
    exact not_forall_not.2 hlacks
  rw [ofDocument_eq_bind h]
  dsimp only
  rw [Attributes.require_of_ne_nil hne]
  rfl

/-- No other report is made. -/
theorem report_of_ofDocument {p : Path} {place : Place}
    (h : Module.ofDocument registry path document = .error (.missingAttributes p place names)) :
    p = path ∧ Report registry path document place names := by
  -- The steps of reading in turn; only two of them fail with such an error.
  rcases bind_eq_error_iff.1 h with h | ⟨⟨kind, fields⟩, hclassify, _⟩
  · obtain ⟨_, h⟩ := classify_eq_error h
    cases h
  rw [ofDocument_eq_bind hclassify] at h
  rcases bind_eq_error_iff.1 h with h | ⟨_, hrequire, h⟩
  · obtain ⟨hne, h⟩ := Attributes.require_eq_error_iff.1 h
    obtain ⟨rfl, rfl, rfl⟩ := DescriptorError.missingAttributes.inj h
    rw [ne_eq, missingAttributes_eq_nil_iff_not_lacks, not_forall_not] at hne
    exact ⟨rfl, .module hclassify hne (selects_missingAttributes kind fields)⟩
  have hcomplete := Attributes.require_eq_ok_iff.1 hrequire
  rcases bind_eq_error_iff.1 h with h | ⟨x, hhead, h⟩
  · obtain ⟨_, _, h⟩ := Attributes.head_eq_error h
    cases h
  have hhead := (Attributes.exists_head_iff hcomplete).1 ⟨x, hhead⟩
  rcases bind_eq_error_iff.1 h with h | ⟨_, _, h⟩
  · rcases Attributes.declarations_eq_error h with ⟨_, h⟩ | ⟨es, e, hes, hfirst⟩
    · cases h
    have hreached : Reached path document kind fields es :=
      ⟨hclassify, missingAttributes_eq_nil_iff_not_lacks.1 hcomplete, hhead, hes⟩
    obtain ⟨rfl, name, entry, hname, hentry, rfl, rfl, hne⟩ :=
      Attributes.declaration_eq_missing_iff.1 hfirst.refused
    exact ⟨rfl, .parameter hreached hfirst hname hentry (exists_lacking_iff.2 hne)
      (selects_missing entry declarationRequired)⟩
  · rcases bind_eq_error_iff.1 h with h | ⟨_, _, h⟩
    · obtain ⟨_, _, _, h⟩ := Attributes.rest_eq_error h
      cases h
    · cases h

/-- **Reports of missing attributes.** If the kind of a document lacks some, this is what is told of
the document, whatever else is wrong. Once the parameters are reached, the first one that is refused
decides what is told; if none is, they are those of the module, and only the attributes behind them
may still be refused. A parameter that lacks some attributes is refused with a report of these. No
other report is made. -/
theorem missingAttributes_told (registry : Registry) (path : Path) (document : Node) :
    (∀ kind fields, classify path document = .ok (kind, fields) →
      (∃ name, Lacks kind fields name) →
      ∃ names, Selects attributeOrder (Lacks kind fields) names ∧
        Module.ofDocument registry path document =
          .error (.missingAttributes path (.module kind) names)) ∧
    (∀ kind fields es, Reached path document kind fields es →
      let a : Attributes := ⟨fields, path, .module kind⟩
      (∀ e err, a.FirstRefused registry es e err →
        Module.ofDocument registry path document = .error err) ∧
      ((∀ e ∈ es, ∃ d, a.declaration registry e = .ok d) →
        (∀ m, Module.ofDocument registry path document = .ok m →
          List.Forall₂ (fun e d => a.declaration registry e = .ok d) es m.parameters) ∧
        ∀ err, Module.ofDocument registry path document = .error err →
          ∃ name ∈ ["description", "class", "include"], ∃ fault, err = a.refuse name fault) ∧
      ∀ e ∈ es, ∀ name entry, e.1.text? = some name → e.2.entries? = some entry →
        (∃ key ∈ declarationRequired, entry.field? key = none) →
        ∃ names, Selects declarationRequired (fun key => entry.field? key = none) names ∧
          a.declaration registry e = .error (.missingAttributes path (.parameter name) names)) ∧
    ∀ p place names,
      Module.ofDocument registry path document = .error (.missingAttributes p place names) →
      p = path ∧ Report registry path document place names := by
  refine ⟨?_, ?_, fun _ _ _ => report_of_ofDocument⟩
  · intro kind fields hclassify hlacks
    exact ⟨missingAttributes kind fields, selects_missingAttributes kind fields,
      ofDocument_of_lacks hclassify hlacks⟩
  intro kind fields es hreached a
  refine ⟨fun e err => hreached.ofDocument_of_first, ?_, ?_⟩
  · intro haccepted
    exact ⟨fun m => hreached.parameters_eq, fun err => hreached.eq_refuse_of_accepted haccepted⟩
  · intro e _ name entry hname hentry hlacks
    have hne := exists_lacking_iff.1 hlacks
    refine ⟨_, selects_missing entry declarationRequired, ?_⟩
    exact Attributes.declaration_eq_missing_iff.2 ⟨rfl, name, entry, hname, hentry, rfl, rfl, hne⟩

/-- A backend with a name and nothing else that is required, and with no mapping of parameters. -/
def namedBackend : Entries :=
  [(.str "parameters", .seq []), (.str "name", .str "b")]

/-- What stands under the second parameter of `unfinishedPlugin`. -/
def unfinishedEntry : Entries :=
  [(.str "type", .str "integer")]

/-- A plugin that has all it requires, but no default and no description of its parameter `y`, and
a list for its own description. -/
def unfinishedPlugin : Entries :=
  [(.str "description", .seq []), (.str "type", .str "p"), (.str "class", .str "C"),
    (.str "include", .str "c.h"),
    (.str "parameters", .map [
      (.str "x", .map [(.str "type", .str "integer"), (.str "default", .int 5),
        (.str "description", .str "x")]),
      (.str "y", .map unfinishedEntry)])]

/-- Of the backend it is told what is missing, and nothing of its parameters; of the plugin, what is
missing of the parameter, and nothing of its description. -/
theorem missingAttributes_told_of_unfinished :
    Module.ofDocument Registry.builtin ⟨"a.yml"⟩ (.map [(.str "backend", .map namedBackend)]) =
        .error (.missingAttributes ⟨"a.yml"⟩ (.module .backend)
          ["description", "class", "include"]) ∧
      (∃ es, Reached ⟨"a.yml"⟩ (.map [(.str "plugin", .map unfinishedPlugin)]) .plugin
        unfinishedPlugin es) ∧
      Module.ofDocument Registry.builtin ⟨"a.yml"⟩ (.map [(.str "plugin", .map unfinishedPlugin)]) =
        .error (.missingAttributes ⟨"a.yml"⟩ (.parameter "y") ["default", "description"]) := by
  have hbackend : Module.ofDocument Registry.builtin ⟨"a.yml"⟩
      (.map [(.str "backend", .map namedBackend)]) =
        .error (.missingAttributes ⟨"a.yml"⟩ (.module .backend)
          ["description", "class", "include"]) := by
    obtain ⟨hkind, _, _⟩ := missingAttributes_told Registry.builtin ⟨"a.yml"⟩
      (.map [(.str "backend", .map namedBackend)])
    obtain ⟨names, hselects, herror⟩ :=
      hkind .backend namedBackend rfl ⟨"class", .common (by decide) rfl⟩
    have hnames : names = missingAttributes .backend namedBackend :=
      hselects.unique (by decide) (selects_missingAttributes .backend namedBackend)
    rw [hnames] at herror
    exact herror
  have hcomplete : missingAttributes .plugin unfinishedPlugin = [] := by decide
  have hreached : Reached ⟨"a.yml"⟩ (.map [(.str "plugin", .map unfinishedPlugin)]) .plugin
      unfinishedPlugin _ :=
    { classified := rfl
      complete := missingAttributes_eq_nil_iff_not_lacks.1 hcomplete
      head := ⟨⟨_, rfl, .str "p"⟩, nofun, nofun, absurd rfl⟩
      parameters := rfl }
  obtain ⟨_, hparameters, _⟩ := missingAttributes_told Registry.builtin ⟨"a.yml"⟩
    (.map [(.str "plugin", .map unfinishedPlugin)])
  obtain ⟨hfirst, _, hentries⟩ := hparameters .plugin unfinishedPlugin _ hreached
  obtain ⟨names, hselects, herror⟩ := hentries (.str "y", .map unfinishedEntry) (by simp) "y"
    unfinishedEntry rfl rfl ⟨"default", by decide, rfl⟩
  have hnames : names = ["default", "description"] :=
    hselects.unique (by decide) (selects_missing unfinishedEntry declarationRequired)
  rw [hnames] at herror
  refine ⟨hbackend, ⟨_, hreached⟩, hfirst _ _ ⟨[_], [], rfl, ?_, herror⟩⟩
  intro b hb
  rw [List.mem_singleton.1 hb]
  exact exists_of_toBool (by decide +kernel)

end Foundry
