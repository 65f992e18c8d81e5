import Foundry.Proofs.Descriptor.Resolution
import Foundry.Proofs.Module.Reading

/-!
# Which modules have the generic parameters

The generic parameters are laid beneath the mapping of a kind only where neither this mapping nor
the document has a tag, while a module is read through such tags. So a module has the generic
parameters if the document is without these tags, and otherwise only those that it declares.

* `parametersOf?_of_bare`, `parametersOf?_of_not_bare`: what the layering does to the parameters of
  a kind.
* `generics_first_iff`: the exact condition under which a module that was loaded has the generic
  parameters, in front of all others.
-/

namespace Foundry

open FileTree Parameter Yaml

variable {kind : Kind} {document : Node} {m : Module}

/-- The names of the generic parameters, in order. -/
def genericNames : List String :=
  Generic.all.map (·.name)

/-- Neither the document nor the mapping of its kind has a tag. -/
def Bare (kind : Kind) (document : Node) : Prop :=
  ∃ es fields : Entries, document = .map es ∧ es.field? kind.key = some (.map fields)

/-! ### Layering -/

/-- At each kind, the generic parameters are laid beneath what stands there. -/
theorem field?_withGenerics (kind : Kind) (es : Entries) :
    Entries.field? kind.key
        (Kind.all.foldl (fun es k => Entries.modify (.str k.key) underlayGenerics es) es) =
      (es.field? kind.key).map underlayGenerics := by
  show Entries.field? kind.key (Entries.modify (.str Kind.backend.key) underlayGenerics
    (Entries.modify (.str Kind.plugin.key) underlayGenerics
      (Entries.modify (.str Kind.component.key) underlayGenerics es))) = _
  rw [Entries.field?_modify, Entries.field?_modify, Entries.field?_modify]
  -- The kinds have different keys, so one of the changes meets the field.
  cases kind <;> rfl

theorem underlayGenerics_of_not_isMap {n : Node} (h : n.isMap = false) :
    underlayGenerics n = n := by
  cases n <;> first | rfl | cases h

/-- A tag around the document or its kind keeps the generic parameters out. -/
theorem parametersOf?_of_not_bare (h : ¬ Bare kind document) :
    parametersOf? kind (withGenerics document) = parametersOf? kind document := by
  cases hmap : document.isMap with
  | false =>
    rw [withGenerics_of_not_map (Node.not_isMap_iff.1 hmap)]
  | true =>
    obtain ⟨es, rfl⟩ := Node.isMap_iff.1 hmap
    have hvalue : (Entries.field? kind.key es).map underlayGenerics =
        Entries.field? kind.key es := by
      cases hv : Entries.field? kind.key es with
      | none => rfl
      | some v =>
        rw [Option.map_some, underlayGenerics_of_not_isMap]
        rw [Node.not_isMap_iff]
        rintro fields rfl
        exact h ⟨es, fields, rfl, hv⟩
    show ((Entries.field? kind.key _).bind Node.entries?).bind _ =
      ((Entries.field? kind.key es).bind Node.entries?).bind _
    rw [field?_withGenerics, hvalue]

/-- The generic parameters as a mapping of parameters. -/
def genericEntries : Entries :=
  Generic.all.map fun g => (.str g.name, g.declaration)

theorem namesOf_genericEntries : namesOf genericEntries = genericNames := rfl

/-- A value that counts as an empty mapping if it is null. -/
def emptyIfNull (n : Node) : Node :=
  if n.isNull then .map [] else n

theorem wellKeyed_emptyIfNull {n : Node} (h : n.WellKeyed) : (emptyIfNull n).WellKeyed := by
  rw [emptyIfNull]
  split
  · exact Node.wellKeyed_empty
  · exact h

theorem emptyIfNull_ne_null (n : Node) : emptyIfNull n ≠ .null := by
  rw [emptyIfNull]
  split
  · intro h
    cases h
  · rename_i hnull
    rintro rfl
    exact hnull rfl

/-- The fields of a kind as they are laid over the generic parameters. -/
def settledFields (fields : Entries) : Entries :=
  Entries.modify (.str parametersKey) emptyIfNull fields

theorem underlayGenerics_map (fields : Entries) :
    underlayGenerics (.map fields) = genericFragment.merge (.map (settledFields fields)) := rfl

theorem wellKeyed_settledFields {fields : Entries} (h : (Node.map fields).WellKeyed) :
    (Node.map (settledFields fields)).WellKeyed :=
  Entries.wellKeyed_modify h fun _ => wellKeyed_emptyIfNull

theorem field?_settledFields (fields : Entries) :
    (settledFields fields).field? parametersKey =
      (fields.field? parametersKey).map emptyIfNull := by
  rw [settledFields, Entries.field?_modify, if_pos rfl]

/-- The fields of a kind over the generic parameters. -/
def layeredFields (fields : Entries) : Entries :=
  Node.mergeEntries [(.str parametersKey, .map genericEntries)] (settledFields fields)

theorem underlayGenerics_eq_map (fields : Entries) :
    underlayGenerics (.map fields) = .map (layeredFields fields) := by
  rw [underlayGenerics_map, genericFragment, Node.merge_map]
  rfl

/-- The parameters of the fields are laid over the generic ones. -/
theorem field?_layeredFields {fields : Entries} (h : (Node.map fields).WellKeyed) :
    (layeredFields fields).field? parametersKey =
      Node.laidOver (some (.map genericEntries))
        ((fields.field? parametersKey).map emptyIfNull) := by
  rw [Entries.field?, layeredFields, Node.find?_mergeEntries (wellKeyed_settledFields h) (.str _)]
  show Node.laidOver _ ((settledFields fields).field? parametersKey) = _
  rw [field?_settledFields]
  rfl

/-- In a document without tags, the parameters of the kind are laid over the generic ones. -/
theorem parametersOf?_of_bare {es fields : Entries} (hwell : (Node.map es).WellKeyed)
    (hfields : es.field? kind.key = some (.map fields)) :
    parametersOf? kind (withGenerics (.map es)) =
      Node.laidOver (some (.map genericEntries))
        ((fields.field? parametersKey).map emptyIfNull) := by
  have hbare : (Node.map fields).WellKeyed := Entries.wellKeyed_of_find? hwell hfields
  show ((Entries.field? kind.key _).bind Node.entries?).bind _ = _
  rw [field?_withGenerics, hfields, Option.map_some, underlayGenerics_eq_map]
  exact field?_layeredFields hbare

/-- Names that are added to others stand behind them. -/
theorem prefix_foldl_addKey (seen ks : List Node) : seen <+: ks.foldl Entries.addKey seen := by
  induction ks generalizing seen with
  | nil => exact List.prefix_refl seen
  | cons k ks ih =>
    refine List.IsPrefix.trans ?_ (ih (Entries.addKey seen k))
    rw [Entries.addKey]
    split
    · exact List.prefix_refl seen
    · exact List.prefix_append seen [k]

theorem namesOf_eq_filterMap_keys (es : Entries) : namesOf es = es.keys.filterMap Node.text? := by
  rw [namesOf, Entries.keys, List.filterMap_map]
  rfl

/-- The names of the base come first in a merge. -/
theorem prefix_namesOf_mergeEntries (es fs : Entries) :
    namesOf es <+: namesOf (Node.mergeEntries es fs) := by
  rw [namesOf_eq_filterMap_keys, namesOf_eq_filterMap_keys, Node.keys_mergeEntries]
  exact (prefix_foldl_addKey _ _).filterMap _

/-! ### Modules -/

theorem take_eq_genericNames {names : List String} (h : genericNames <+: names) :
    names.take 5 = genericNames :=
  (List.prefix_iff_eq_take.1 h).symm

/-- A document without tags gives a module the generic parameters, in front. -/
theorem prefix_declaredNames_of_bare {registry : Registry} {path : Path}
    (hwell : document.WellKeyed) (hbare : Bare m.role.kind document)
    (h : Module.ofDocument registry path (withGenerics document) = .ok m) :
    genericNames <+: declaredNames m.role.kind (withGenerics document) := by
  obtain ⟨es, fields, rfl, hfields⟩ := hbare
  have hcases := parametersOf?_cases h
  rw [declaredNames, ← namesOf_genericEntries]
  rw [parametersOf?_of_bare hwell hfields] at hcases ⊢
  cases hdeclared : fields.field? parametersKey with
  | none => exact List.prefix_refl (namesOf genericEntries)
  | some n =>
    rw [hdeclared, Option.map_some, Node.some_laidOver_some] at hcases
    rw [Option.map_some, Node.some_laidOver_some]
    cases hmap : (emptyIfNull n).isMap with
    | true =>
      obtain ⟨declared, hn⟩ := Node.isMap_iff.1 hmap
      rw [hn, Node.merge_map]
      exact prefix_namesOf_mergeEntries genericEntries declared
    | false =>
      -- Reading the module would have refused the value.
      rw [Node.merge_eq_overlay (Or.inr hmap)] at hcases
      rcases hcases with hnone | hnull | ⟨declared, hn⟩
      · cases hnone
      · exact absurd (Option.some.inj hnull) (emptyIfNull_ne_null n)
      · rw [Option.some.inj hn] at hmap
        cases hmap

/-- **When the generic parameters come first.** -/
theorem generics_first_iff {tree : FileTree} {registry : Registry} {path : Path}
    (h : Module.load tree registry path = .ok m) :
    ∃ document, tree.resolve path = .ok document ∧
      ((m.parameters.map (·.name)).take 5 = genericNames ↔
        Bare m.role.kind document ∨
          (declaredNames m.role.kind document).take 5 = genericNames) := by
  obtain ⟨document, hresolve, hread⟩ := bind_eq_ok_iff.1 h
  refine ⟨document, hresolve, ?_⟩
  have hnames := names_of_ofDocument hread
  by_cases hbare : Bare m.role.kind document
  -- Without tags the generic parameters come first in any case.
  · have hwell := wellKeyed_of_resolve hresolve
    have hprefix := prefix_declaredNames_of_bare hwell hbare hread
    rw [hnames, take_eq_genericNames hprefix]
    exact iff_of_true rfl (Or.inl hbare)
  · rw [hnames, declaredNames, parametersOf?_of_not_bare hbare, ← declaredNames, or_iff_right hbare]

/-- A plugin in a mapping with a tag. -/
def taggedPlugin : FileTree :=
  ⟨[(["w"], .directory),
    (["w", "a.yml"],
      .file "plugin: !x \x7bname: p, description: d, class: C, include: c.h\x7d".toUTF8)],
    ["w"]⟩

/-- The module has no parameters at all. -/
theorem generics_missing_of_taggedPlugin :
    ∃ m document, Module.load taggedPlugin Registry.builtin ⟨"a.yml"⟩ = .ok m ∧
      taggedPlugin.resolve ⟨"a.yml"⟩ = .ok document ∧ declaredNames m.role.kind document = [] ∧
      (m.parameters.map (·.name)).take 5 ≠ genericNames := by
  have hload : (Module.load taggedPlugin Registry.builtin ⟨"a.yml"⟩).toBool = true := by
    decide +kernel
  -- Whatever the kind is, the document has no mapping without a tag for it, and no names in one.
  have hdocument : ((taggedPlugin.resolve ⟨"a.yml"⟩).toOption.any fun document =>
      Kind.all.all fun kind =>
        !((document.entries?.bind (·.field? kind.key)).any Node.isMap) &&
          (declaredNames kind document).isEmpty) = true := by
    decide +kernel
  cases hm : Module.load taggedPlugin Registry.builtin ⟨"a.yml"⟩ with
  | error e =>
    rw [hm] at hload
    cases hload
  | ok m =>
    obtain ⟨document, hresolve, hiff⟩ := generics_first_iff hm
    rw [hresolve] at hdocument
    have hkind := List.all_eq_true.1 hdocument m.role.kind (Kind.mem_all _)
    rw [Bool.and_eq_true, List.isEmpty_iff] at hkind
    obtain ⟨hmap, hnone⟩ := hkind
    refine ⟨m, document, rfl, hresolve, hnone, ?_⟩
    rw [ne_eq, hiff, hnone, not_or]
    refine ⟨?_, by decide⟩
    rintro ⟨es, fields, rfl, hfields⟩
    have hvalue : ((Node.map es).entries?.bind (·.field? m.role.kind.key)) = some (.map fields) :=
      hfields
    rw [hvalue] at hmap
    cases hmap

end Foundry
