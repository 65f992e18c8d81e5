import Foundry.Proofs.Descriptor.Alteration
import Foundry.Proofs.Module.Layering
import Foundry.Proofs.Yaml.Emptied

/-!
# Parameters without a value

A descriptor may say `parameters:` and nothing more. Once the document is resolved, this is the same
as an empty mapping: the generic parameters are laid beneath it, and there are no others. While it
is resolved this null is laid over what other files declare, and replaces it.

* `ofDocument_of_emptied`: in a resolved document, null stands for no parameters.
* `load_of_emptied`: a null may be made an empty mapping in the files of a module, unless it is laid
  over parameters. `load_differs_of_bareOverlay` is such a case.
-/

namespace Foundry

open FileTree Parameter Yaml

/-- The places of parameters: one for each kind. -/
def parametersPath : List (List String) :=
  [Kind.all.map Kind.key, [parametersKey]]

variable {registry : Registry} {path : Path} {document document' : Node} {kind : Kind}
  {es fs fields fields' : Entries} {name : String}

/-! ### Reading -/

namespace Attributes

section Field

variable {place : Place} (h : fields.field? name = fields'.field? name)

include h

/-- A text is read from its own field and from nothing else. -/
theorem text_congr : text ⟨fields, path, place⟩ name = text ⟨fields', path, place⟩ name := by
  simp only [text, h, refuse]

theorem optionalText_congr :
    optionalText ⟨fields, path, place⟩ name = optionalText ⟨fields', path, place⟩ name := by
  simp only [optionalText, h, refuse]

theorem texts_congr : texts ⟨fields, path, place⟩ name = texts ⟨fields', path, place⟩ name := by
  simp only [texts, h, refuse]

theorem integer_congr :
    integer ⟨fields, path, place⟩ name = integer ⟨fields', path, place⟩ name := by
  simp only [integer, h, refuse]

end Field

/-- Parameters without a value are read as no parameters. -/
theorem declarations_of_emptied {place : Place}
    (h : Option.Rel (Node.Emptied []) (fields.field? parametersKey)
      (fields'.field? parametersKey)) :
    declarations ⟨fields, path, place⟩ registry = declarations ⟨fields', path, place⟩ registry := by
  unfold declarations
  dsimp only
  rcases rel_cases h with ⟨hx, hy⟩ | ⟨_, _, hx, hy, rfl | ⟨rfl, rfl⟩⟩
  · rw [hx, hy]
  · rw [hx, hy]
    rfl
  · rw [hx, hy]
    rfl

end Attributes

/-- Fields of a kind that differ by a null that became an empty mapping. -/
abbrev FieldsEmptied : Entries → Entries → Prop :=
  Entries.AgreeBut (Node.Emptied []) [parametersKey]

theorem missingAttributes_of_emptied (h : FieldsEmptied fields fields') (kind : Kind) :
    missingAttributes kind fields = missingAttributes kind fields' := by
  simp only [missingAttributes, missing, h.hasField]

/-- A document keeps its kind, and its fields differ as the document does. -/
theorem classify_of_emptied (h : Node.Emptied parametersPath document document') :
    Agrees (fun x y => x.1 = y.1 ∧ FieldsEmptied x.2 y.2) (classify path document)
      (classify path document') := by
  unfold classify
  dsimp only
  rcases rel_cases h.entries? with ⟨hx, hy⟩ | ⟨top, top', hx, hy, htop⟩
  · rw [hx, hy]
    exact Or.inl ⟨_, rfl, rfl⟩
  -- The kinds that a document declares depend on its keys.
  · have hdeclares : (fun k : Kind => top'.hasField k.key) = fun k => top.hasField k.key := by
      funext k
      exact (htop.hasField k.key).symm
    rw [hx, hy]
    dsimp only
    rw [hdeclares]
    split
    · have hnames : namesOf top' = namesOf top := by
        rw [namesOf_eq_filterMap_keys, namesOf_eq_filterMap_keys, htop.keys]
      rw [namesOf, namesOf] at hnames
      rw [hnames]
      exact Or.inl ⟨_, rfl, rfl⟩
    · rename_i kind _
      have hfield := htop.there kind.key (List.mem_map_of_mem (Kind.mem_all kind))
      rcases rel_cases hfield with ⟨hv, hw⟩ | ⟨v, w, hv, hw, hvalue⟩
      · rw [hv, hw]
        exact Or.inl ⟨_, rfl, rfl⟩
      · rw [hv, hw, Option.bind_some, Option.bind_some]
        rcases rel_cases hvalue.entries? with ⟨hes, hfs⟩ | ⟨fields, fields', hes, hfs, hfields⟩
        · rw [hes, hfs]
          exact Or.inl ⟨_, rfl, rfl⟩
        · rw [hes, hfs]
          exact Or.inr ⟨_, _, rfl, rfl, rfl, hfields⟩
    · exact Or.inl ⟨_, rfl, rfl⟩

/-- **Nothing declared.** A null in the place of parameters is read like an empty mapping. -/
theorem ofDocument_of_emptied (registry : Registry) (path : Path)
    (h : Node.Emptied parametersPath document document') :
    Module.ofDocument registry path document' = Module.ofDocument registry path document := by
  unfold Module.ofDocument
  refine bind_eq_of_agrees (classify_of_emptied h) ?_
  rintro ⟨kind, fields⟩ ⟨_, fields'⟩ _ _ ⟨rfl, hfields⟩
  dsimp only at hfields ⊢
  have hfield : ∀ name, name ≠ parametersKey → fields'.field? name = fields.field? name :=
    fun name hname => (hfields.field? (mt List.mem_singleton.1 hname)).symm
  -- All other fields are read at names that are not that of the parameters.
  have hidentifier :
      (if fields.hasField "type" = true then "type" else "name") ≠ parametersKey := by
    split <;> decide
  rw [← missingAttributes_of_emptied hfields, ← hfields.hasField,
    Attributes.text_congr (hfield _ hidentifier),
    Attributes.declarations_of_emptied (hfields.there parametersKey (List.mem_singleton_self _)),
    Attributes.text_congr (hfield "implementation" (by decide)),
    Attributes.text_congr (hfield "description" (by decide)),
    Attributes.text_congr (hfield "class" (by decide)),
    Attributes.texts_congr (hfield "include" (by decide)),
    Attributes.integer_congr (hfield "priority" (by decide)),
    Attributes.optionalText_congr (hfield "discover" (by decide))]
  rfl

/-! ### Generic parameters -/

/-- Over the generic parameters a null counts as an empty mapping, so no difference is left. -/
theorem settledFields_of_emptied (hwell : (Node.map fields).WellKeyed)
    (h : FieldsEmptied fields fields') : settledFields fields = settledFields fields' := by
  refine Entries.ext_of_keys_eq (wellKeyed_settledFields hwell) ?_ fun k hk => ?_
  · rw [settledFields, settledFields, Entries.keys_modify, Entries.keys_modify, h.keys]
  · rw [settledFields, Entries.keys_modify, Entries.keys, List.mem_map] at hk
    obtain ⟨e, he, rfl⟩ := hk
    have hkey := hwell.key_of_mem he
    by_cases hparameters : e.1 = .str parametersKey
    · rw [hparameters, settledFields, settledFields, ← Entries.field?, ← Entries.field?,
        Entries.field?_modify, Entries.field?_modify, if_pos rfl, if_pos rfl]
      have hthere := h.there parametersKey (List.mem_singleton_self _)
      rcases rel_cases hthere with ⟨hx, hy⟩ | ⟨_, _, hx, hy, rfl | ⟨rfl, rfl⟩⟩
      · rw [hx, hy]
      · rw [hx, hy]
      · rw [hx, hy]
        rfl
    · have hne : e.1.same (.str parametersKey) = false :=
        Bool.eq_false_iff.2 (mt Node.same_right_str_iff.1 hparameters)
      rw [settledFields, settledFields, Entries.find?_modify_of_not_same hne,
        Entries.find?_modify_of_not_same hne]
      exact h.elsewhere e.1 hkey fun name hname => List.mem_singleton.1 hname ▸ hparameters

/-- With the generic parameters beneath, fields of a mapping are the same; others stay related. -/
theorem underlayGenerics_of_emptied {a b : Node} (ha : a.WellKeyed)
    (h : Node.Emptied [[parametersKey]] a b) :
    Node.Emptied [[parametersKey]] (underlayGenerics a) (underlayGenerics b) := by
  cases hmap : a.isMap with
  | false =>
    rw [underlayGenerics_of_not_isMap hmap, underlayGenerics_of_not_isMap (h.isMap ▸ hmap)]
    exact h
  | true =>
    obtain ⟨fields, rfl⟩ := Node.isMap_iff.1 hmap
    obtain ⟨fields', rfl⟩ := Node.isMap_iff.1 (h.isMap ▸ hmap)
    rw [underlayGenerics_map, underlayGenerics_map, settledFields_of_emptied ha h.agreeBut]
    exact Node.Emptied.refl _ _

theorem find?_underlayKinds {k : Node} (h : ∀ kind : Kind, k.same (.str kind.key) = false) :
    (underlayKinds es).find? k = es.find? k := by
  refine underlayKinds_induction (P := fun fs => fs.find? k = es.find? k) rfl fun fs kind hfs => ?_
  rw [Entries.find?_modify_of_not_same (h kind), hfs]

/-- Generic parameters are laid beneath both documents alike. -/
theorem withGenerics_of_emptied (hwell : document.WellKeyed)
    (h : Node.Emptied parametersPath document document') :
    Node.Emptied parametersPath (withGenerics document) (withGenerics document') := by
  cases hmap : document.isMap with
  | false =>
    rw [withGenerics_of_not_map (Node.not_isMap_iff.1 hmap),
      withGenerics_of_not_map (Node.not_isMap_iff.1 (h.isMap ▸ hmap))]
    exact h
  | true =>
    obtain ⟨es, rfl⟩ := Node.isMap_iff.1 hmap
    obtain ⟨fs, rfl⟩ := Node.isMap_iff.1 (h.isMap ▸ hmap)
    have hagree := h.agreeBut
    rw [withGenerics_map, withGenerics_map]
    refine Or.inr ⟨rfl, _, _, rfl, rfl, ?_, fun k hk hne => ?_, fun name hname => ?_⟩
    · rw [keys_underlayKinds, keys_underlayKinds, hagree.keys]
    -- Elsewhere than at the kinds nothing is laid beneath.
    · have hkinds : ∀ kind : Kind, k.same (.str kind.key) = false := by
        intro kind
        have hkind := hne kind.key (List.mem_map_of_mem (Kind.mem_all kind))
        exact Bool.eq_false_iff.2 (mt Node.same_right_str_iff.1 hkind)
      rw [find?_underlayKinds hkinds, find?_underlayKinds hkinds, hagree.elsewhere k hk hne]
    · obtain ⟨kind, _, rfl⟩ := List.mem_map.1 hname
      rw [underlayKinds, underlayKinds, field?_withGenerics, field?_withGenerics]
      rcases rel_cases (hagree.there kind.key hname) with ⟨hx, hy⟩ | ⟨v, w, hx, hy, hrel⟩
      · rw [hx, hy]
        exact .none
      · rw [hx, hy]
        exact .some (underlayGenerics_of_emptied (Entries.wellKeyed_of_find? hwell hx) hrel)

/-! ### Files -/

/-- The paths that a document includes stand beside its kinds, so they are the same. -/
theorem includedPaths_of_emptied {a b : Node} (h : Node.Emptied parametersPath a b) :
    includedPaths a = includedPaths b := by
  rw [includedPaths, includedPaths]
  rcases rel_cases h.entries? with ⟨hx, hy⟩ | ⟨es, fs, hx, hy, hagree⟩
  · rw [hx, hy]
  · have hdirective : directiveKey ∉ Kind.all.map Kind.key := by decide
    rw [hx, hy, Option.bind_some, Option.bind_some, hagree.field? hdirective]

theorem withoutDirective_of_not_isMap {n : Node} {fs : Entries} (hmap : n.isMap = false)
    (hfs : n.entries? = some fs) : withoutDirective n = n := by
  cases n with
  | null => cases hfs
  | map => cases hmap
  | _ => rfl

theorem withoutDirective_of_emptied {a b : Node} (h : Node.Emptied parametersPath a b) :
    Node.Emptied parametersPath (withoutDirective a) (withoutDirective b) := by
  have hmaps := h.isMap
  rcases h with rfl | ⟨htags, es, fs, hes, hfs, hagree⟩
  · exact Node.Emptied.refl _ _
  · cases hmap : a.isMap with
    | false =>
      rw [withoutDirective_of_not_isMap hmap hes, withoutDirective_of_not_isMap (hmaps ▸ hmap) hfs]
      exact Or.inr ⟨htags, es, fs, hes, hfs, hagree⟩
    | true =>
      obtain ⟨es, rfl⟩ := Node.isMap_iff.1 hmap
      obtain ⟨fs, rfl⟩ := Node.isMap_iff.1 (hmaps ▸ hmap)
      obtain rfl := Option.some.inj hes
      obtain rfl := Option.some.inj hfs
      have hown : ∀ k l : Node, k.same l = true →
          (k.string? != some directiveKey) = (l.string? != some directiveKey) := by
        intro k l hkl
        rw [Node.string?_of_same hkl]
      exact Or.inr ⟨rfl, _, _, rfl, rfl, hagree.filter (P := (·.string? != some directiveKey)) hown⟩

/-- No null that becomes an empty mapping is laid over parameters, in any file of a module. -/
def SparedFrom (t u : FileTree) (p : Path) : Prop :=
  ∀ q, Relation.ReflTransGen t.Forms p q → ∀ layers layers', t.Layers q layers →
    u.Layers q layers' → Node.Spared parametersPath layers layers'

variable {t u : FileTree} {p : Path}

/-- **Nothing erased, nothing changed.** A module is loaded as before. -/
theorem load_of_altered (registry : Registry) (h : Altered (Node.Emptied parametersPath) t u)
    (hspared : SparedFrom t u p) : Module.load u registry p = Module.load t registry p := by
  have hresolve : Agrees (Node.Emptied parametersPath) (t.resolve p) (u.resolve p) := by
    refine agrees_resolveOn h (fun n _ => Node.Emptied.refl _ n)
      (fun _ _ => includedPaths_of_emptied) (fun _ _ => withoutDirective_of_emptied) ?_ []
    -- The stack of each file that is met is where something could be erased.
    intro q hq layers layers' hlayers hlayers' hrel
    exact Node.Emptied.stacked hrel (wellKeyed_of_layers hlayers) (wellKeyed_of_layers hlayers')
      (hspared q hq layers layers' hlayers hlayers')
  refine bind_eq_of_agrees hresolve fun d d' hd _ hrel => ?_
  exact ofDocument_of_emptied registry p (withGenerics_of_emptied (wellKeyed_of_resolve hd) hrel)

/-- Parameters without a value leave the generic ones alone. -/
theorem declaredNames_of_null (hwell : document.WellKeyed) (hbare : Bare kind document)
    (hnull : parametersOf? kind document = some .null) :
    declaredNames kind (withGenerics document) = genericNames := by
  obtain ⟨es, fields, rfl, hfields⟩ := hbare
  have hparameters : fields.field? parametersKey = some .null := by
    rw [← hnull, parametersOf?]
    show _ = (Option.bind (Entries.field? kind.key es) Node.entries?).bind _
    rw [hfields]
    rfl
  rw [declaredNames, parametersOf?_of_bare hwell hfields, hparameters, ← namesOf_genericEntries]
  rfl

/-- A file without fragments has nothing that could be erased. -/
theorem sparedFrom_of_leaf (h : Altered (Node.Emptied parametersPath) t u)
    (hread : t.readDocument p = .ok document) (hentries : includedPaths document = .ok []) :
    SparedFrom t u p := by
  refine forall_forms_iff.2 ⟨fun layers layers' hlayers hlayers' => ?_, fun q hq => ?_⟩
  · have hagrees := h.readDocument (fun n _ => Node.Emptied.refl _ n) p
    rw [hread] at hagrees
    rcases hagrees with ⟨_, ⟨⟩, _⟩ | ⟨_, document', ⟨⟩, hread', hrel⟩
    have hentries' := hentries
    rw [includedPaths_of_emptied hrel] at hentries'
    obtain ⟨_, hnil, rfl⟩ := (layers_iff hread hentries).1 hlayers
    obtain ⟨_, hnil', rfl⟩ := (layers_iff hread' hentries').1 hlayers'
    rw [List.forall₂_nil_left_iff.1 hnil, List.forall₂_nil_left_iff.1 hnil']
    exact Node.spared_cons _ _ []
  · obtain ⟨_, he, _⟩ := (forms_iff_of_readDocument hread hentries).1 hq
    exact absurd he List.not_mem_nil

/-- **Parameters without a value.** Nulls may be made empty mappings in the files of a module: that
changes nothing, unless one of them is laid over parameters. A null that is left in the end stands
for the generic parameters alone. -/
theorem load_of_emptied (registry : Registry) (h : Altered (Node.Emptied parametersPath) t u) :
    (SparedFrom t u p → Module.load u registry p = Module.load t registry p) ∧
      ∀ document m, t.resolve p = .ok document → Module.load t registry p = .ok m →
        Bare m.role.kind document → parametersOf? m.role.kind document = some .null →
        m.parameters.map (·.name) = genericNames := by
  refine ⟨load_of_altered registry h, fun document m hresolve hload hbare hnull => ?_⟩
  have hread : Module.ofDocument registry p (withGenerics document) = .ok m := by
    rw [← hload, Module.load, hresolve]
    rfl
  rw [names_of_ofDocument hread, declaredNames_of_null (wellKeyed_of_resolve hresolve) hbare hnull]

/-- What a file comes to that includes one file, which includes none. -/
theorem resolve_of_pair {own fragment : Node} {e : String} (hread : t.readDocument p = .ok own)
    (hentries : includedPaths own = .ok [e])
    (hread' : t.readDocument (p.directory.join ⟨e⟩) = .ok fragment)
    (hentries' : includedPaths fragment = .ok [])
    (hother : isOn [t.identity p] (t.identity (p.directory.join ⟨e⟩)) = false) :
    t.resolve p = .ok
      (overFragments (withoutDirective own) [overFragments (withoutDirective fragment) []]) := by
  refine resolveOn_eq_ok_iff.2 ⟨rfl, own, [e], _, hread, hentries, .cons ?_ .nil, rfl⟩
  exact resolveOn_eq_ok_iff.2 ⟨hother, fragment, [], [], hread', hentries', .nil, rfl⟩

/-- The document of a plugin with parameters and nothing else. -/
def fragmentDocument (parameters : Node) : Node :=
  .map [(.str "plugin", .map [(.str "parameters", parameters)])]

/-- A plugin that includes a fragment with parameters without a value. -/
def bareFragment : FileTree :=
  ⟨[(["w"], .directory),
    (["w", "a.yml"],
      .file ("include: b.yml\nplugin: \x7bname: p, description: d, class: C, " ++
        "include: c.h\x7d").toUTF8),
    (["w", "b.yml"], .file "plugin:\n parameters:".toUTF8)], ["w"]⟩

/-- The plugin with an empty mapping in the fragment. -/
def filledFragment : FileTree :=
  bareFragment.put ["w", "b.yml"] (.file "plugin:\n parameters: \x7b\x7d".toUTF8)

/-- The plugin over the fragment. -/
def overFragment : Node :=
  .map [(.str "include", .str "b.yml"), (.str "plugin", .map [(.str "name", .str "p"),
    (.str "description", .str "d"), (.str "class", .str "C"), (.str "include", .str "c.h")])]

theorem readDocument_bareFragment :
    bareFragment.readDocument ⟨"a.yml"⟩ = .ok overFragment := by
  decide +kernel

theorem readDocument_bareFragment_joined :
    bareFragment.readDocument ((⟨"a.yml"⟩ : Path).directory.join ⟨"b.yml"⟩) =
      .ok (fragmentDocument .null) := by
  decide +kernel

theorem altered_filledFragment :
    Altered (Node.Emptied parametersPath) bareFragment filledFragment := by
  obtain ⟨here, hlocate, hdocument⟩ := readDocument_eq_ok_iff.1 readDocument_bareFragment_joined
  obtain rfl : ["w", "b.yml"] = here := Except.ok.inj hlocate
  have hdocument' : Node.ofText? "plugin:\n parameters: \x7b\x7d" =
      some (fragmentDocument (.map [])) := by
    decide +kernel
  refine altered_put hdocument hdocument' ?_
  refine Node.emptied_entry (by decide) [] [] (Node.emptied_entry (by decide) [] [] ?_)
  exact Or.inr ⟨rfl, rfl⟩

theorem sparedFrom_filledFragment : SparedFrom bareFragment filledFragment ⟨"a.yml"⟩ := by
  have ha := readDocument_bareFragment
  have ha' : filledFragment.readDocument ⟨"a.yml"⟩ = .ok overFragment :=
    readDocument_put_of_ne ha rfl rfl (by decide)
  refine forall_forms_iff.2 ⟨fun layers layers' h h' => ?_, fun q hq => ?_⟩
  · obtain ⟨_, hfragments, rfl⟩ := (layers_iff ha rfl).1 h
    obtain ⟨_, hfragments', rfl⟩ := (layers_iff ha' rfl).1 h'
    obtain ⟨fragment, _, _, hnil, rfl⟩ := List.forall₂_cons_left_iff.1 hfragments
    obtain ⟨fragment', _, _, hnil', rfl⟩ := List.forall₂_cons_left_iff.1 hfragments'
    rw [List.forall₂_nil_left_iff.1 hnil, List.forall₂_nil_left_iff.1 hnil']
    exact Node.spared_cons _ _ _
  · obtain ⟨e, he, rfl⟩ := (forms_iff_of_readDocument ha rfl).1 hq
    rw [List.mem_singleton.1 he]
    exact sparedFrom_of_leaf altered_filledFragment readDocument_bareFragment_joined rfl

/-- The fragment may be either, and the plugin has the generic parameters alone. -/
theorem load_of_filledFragment :
    ∃ m, Module.load bareFragment Registry.builtin ⟨"a.yml"⟩ = .ok m ∧
      Module.load filledFragment Registry.builtin ⟨"a.yml"⟩ = .ok m ∧
      m.parameters.map (·.name) = genericNames := by
  obtain ⟨hload, hnames⟩ := load_of_emptied (p := ⟨"a.yml"⟩) Registry.builtin altered_filledFragment
  have hresolve := resolve_of_pair readDocument_bareFragment rfl readDocument_bareFragment_joined
    rfl (by decide +kernel)
  have hkind : ((Module.load bareFragment Registry.builtin ⟨"a.yml"⟩).toOption.any
      fun m => m.role.kind = .plugin) = true := by
    rw [Module.load, hresolve]
    decide +kernel
  cases hm : Module.load bareFragment Registry.builtin ⟨"a.yml"⟩ with
  | error e =>
    rw [hm] at hkind
    cases hkind
  | ok m =>
    rw [hm] at hkind
    have hplugin : m.role.kind = .plugin := of_decide_eq_true hkind
    refine ⟨m, rfl, (hload sparedFrom_filledFragment).trans hm, hnames _ m hresolve hm ?_ ?_⟩
    · rw [hplugin]
      exact ⟨_, _, rfl, rfl⟩
    · rw [hplugin]
      rfl

/-- The text of a plugin with a fragment and parameters. -/
def overlayText (parameters : String) : String :=
  "include: b.yml\nplugin: \x7btype: p, description: d, class: C, include: c.h, parameters: " ++
    parameters ++ "\x7d"

/-- The document of this plugin. -/
def overlayDocument (parameters : Node) : Node :=
  .map [(.str "include", .str "b.yml"), (.str "plugin", .map [(.str "type", .str "p"),
    (.str "description", .str "d"), (.str "class", .str "C"), (.str "include", .str "c.h"),
    (.str "parameters", parameters)])]

/-- A plugin whose parameters without a value are laid over those of a fragment. -/
def bareOverlay : FileTree :=
  ⟨[(["w"], .directory), (["w", "a.yml"], .file (overlayText "").toUTF8),
    (["w", "b.yml"],
      .file ("plugin: \x7bparameters: \x7bx: \x7btype: integer, default: 5, " ++
        "description: X\x7d\x7d\x7d").toUTF8)], ["w"]⟩

/-- The plugin with an empty mapping instead. -/
def filledOverlay : FileTree :=
  bareOverlay.put ["w", "a.yml"] (.file (overlayText "\x7b\x7d").toUTF8)

/-- The document of the fragment. -/
def parameterDocument : Node :=
  fragmentDocument (.map [(.str "x", .map [(.str "type", .str "integer"), (.str "default", .int 5),
    (.str "description", .str "X")])])

theorem documentAt?_bareOverlay :
    bareOverlay.documentAt? ["w", "a.yml"] = some (overlayDocument .null) := by
  have hfile : bareOverlay.found? ["w", "a.yml"] = some (.file (overlayText "").toUTF8) := rfl
  rw [documentAt?_of_text hfile]
  decide +kernel

theorem ofText?_overlayText :
    Node.ofText? (overlayText "\x7b\x7d") = some (overlayDocument (.map [])) := by
  decide +kernel

theorem readDocument_bareOverlay_joined :
    bareOverlay.readDocument ((⟨"a.yml"⟩ : Path).directory.join ⟨"b.yml"⟩) =
      .ok parameterDocument := by
  decide +kernel

/-- The parameter of the fragment is erased by the null, and kept by the empty mapping. -/
theorem load_differs_of_bareOverlay :
    Altered (Node.Emptied parametersPath) bareOverlay filledOverlay ∧
      ∃ m m', Module.load bareOverlay Registry.builtin ⟨"a.yml"⟩ = .ok m ∧
        Module.load filledOverlay Registry.builtin ⟨"a.yml"⟩ = .ok m' ∧
        m.parameters.map (·.name) = genericNames ∧
        m'.parameters.map (·.name) = genericNames ++ ["x"] := by
  have haltered : Altered (Node.Emptied parametersPath) bareOverlay filledOverlay := by
    refine altered_put documentAt?_bareOverlay ofText?_overlayText ?_
    refine Node.emptied_entry (by decide) [_] [] (Node.emptied_entry (by decide) [_, _, _, _] [] ?_)
    exact Or.inr ⟨rfl, rfl⟩
  have hb := readDocument_bareOverlay_joined
  have hb' : filledOverlay.readDocument ((⟨"a.yml"⟩ : Path).directory.join ⟨"b.yml"⟩) =
      .ok parameterDocument :=
    readDocument_put_of_ne hb rfl rfl (by decide)
  have ha : bareOverlay.readDocument ⟨"a.yml"⟩ = .ok (overlayDocument .null) :=
    readDocument_eq_ok_iff.2 ⟨["w", "a.yml"], rfl, documentAt?_bareOverlay⟩
  have ha' : filledOverlay.readDocument ⟨"a.yml"⟩ = .ok (overlayDocument (.map [])) := by
    refine readDocument_eq_ok_iff.2 ⟨["w", "a.yml"], rfl, ?_⟩
    rw [documentAt?_of_text rfl, ofText?_overlayText]
  have hnames : (Module.load bareOverlay Registry.builtin ⟨"a.yml"⟩).toOption.map
      (·.parameters.map (·.name)) = some genericNames := by
    rw [Module.load, resolve_of_pair ha rfl hb rfl (by decide +kernel)]
    decide +kernel
  have hnames' : (Module.load filledOverlay Registry.builtin ⟨"a.yml"⟩).toOption.map
      (·.parameters.map (·.name)) = some (genericNames ++ ["x"]) := by
    rw [Module.load, resolve_of_pair ha' rfl hb' rfl (by decide +kernel)]
    decide +kernel
  obtain ⟨m, hm, hnames⟩ := Option.map_eq_some_iff.1 hnames
  obtain ⟨m', hm', hnames'⟩ := Option.map_eq_some_iff.1 hnames'
  exact ⟨haltered, m, m', toOption_eq_some_iff.1 hm, toOption_eq_some_iff.1 hm', hnames, hnames'⟩

end Foundry
