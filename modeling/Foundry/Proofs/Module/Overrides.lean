import Foundry.Proofs.Module.Layering
import Foundry.Proofs.Yaml.Union

/-!
# Declarations over the generic parameters

What laying the generic parameters beneath a document makes of it, at every level. The document
keeps its keys and every entry that is no mapping of a kind. The mapping of a kind keeps its other
attributes and gets `parameters` in front of them. The parameters are the generic ones, in their
order, and then the others, in the order of the descriptor (`Layered`). A generic parameter that is
declared keeps all declared fields and gets those that the declaration lacks; a declaration that is
no mapping without a tag stands as it is (`Settled`).

* `layered_mergeEntries`: the parameters.
* `layeredFields_eq_cons`: the attributes of a kind.
* `withGenerics_keeps_declared`: the document, and the parameters of the module that is read from
  it.
-/

namespace Foundry

open Parameter Yaml

/-! ### What is declared, and what becomes of it -/

/-- What the mapping of a kind declares under `parameters`: nothing, if nothing stands there or a
null, with tags around it or not; and else the entries of a mapping without a tag. -/
inductive Declares (fields : Entries) : Entries → Prop
  | absent (h : fields.field? parametersKey = none) : Declares fields []
  | null {n : Node} (h : fields.field? parametersKey = some n) (hnull : n.isNull = true) :
    Declares fields []
  | map {ps : Entries} (h : fields.field? parametersKey = some (.map ps)) : Declares fields ps

namespace Generic

/-- The fields of the declaration of a generic parameter. -/
def fields (g : Generic) : Entries :=
  [(.str "type", .str g.typeName), (.str "default", g.default),
    (.str "description", .str g.description), (.str "advanced", .bool true)]

/-- The names of these fields, in order. -/
def fieldNames : List String :=
  ["type", "default", "description", "advanced"]

theorem declaration_eq (g : Generic) : g.declaration = .map g.fields := rfl

theorem keys_fields (g : Generic) : g.fields.keys = fieldNames.map .str := rfl

variable {g : Generic}

theorem wellKeyed_declaration (hg : g ∈ all) : g.declaration.WellKeyed := by
  have hall : ∀ g ∈ all, g.declaration.WellKeyed := by
    simp [all, declaration, Entries.keysDistinct, Node.same]
  exact hall g hg

/-- The declaration of a generic parameter has names for keys and scalars for values. -/
theorem plain_fields (hg : g ∈ all) :
    ∀ e ∈ g.fields, (∃ name, e.1 = .str name) ∧ e.2.isMap = false := by
  have hall : ∀ g ∈ all, ∀ e ∈ g.fields, (∃ name, e.1 = .str name) ∧ e.2.isMap = false := by
    simp [all, fields, Node.isMap]
  exact hall g hg

end Generic

/-- What becomes of a generic parameter: it is as ever if it is not declared, has all fields of its
declaration and of the generic fields those that it lacks, or is declared by something else. -/
inductive Settled (g : Generic) : Option Node → Node → Prop
  | undeclared : Settled g none g.declaration
  | completed {fs gs : Entries}
    (keys : gs.keys = g.fields.keys ++ (fs.besides Generic.fieldNames).keys)
    (mem : ∀ e : Node × Node, e ∈ gs ↔ e ∈ fs ∨ e ∈ g.fields ∧ Entries.find? e.1 fs = none) :
    Settled g (some (.map fs)) (.map gs)
  | replaced {n : Node} (h : n.isMap = false) : Settled g (some n) n

/-- The parameters `qs` are the generic ones with the declared ones `ps` over them. -/
structure Layered (ps qs : Entries) : Prop where
  keys : qs.keys = genericNames.map .str ++ (ps.besides genericNames).keys
  generic : ∀ g ∈ Generic.all, ∃ n, qs.field? g.name = some n ∧ Settled g (ps.field? g.name) n
  others : qs.besides genericNames = ps.besides genericNames

/-! ### Parameters -/

variable {g : Generic} {kind : Kind} {es fields ps : Entries} {n : Node}

/-- What is declared under the name of a generic parameter settles it when it is laid over. -/
theorem settled_merge (hg : g ∈ Generic.all) (hn : n.WellKeyed) :
    Settled g (some n) (g.declaration.merge n) := by
  by_cases hmap : n.isMap = true
  · obtain ⟨fs, rfl⟩ := Node.isMap_iff.1 hmap
    have hfields : (Node.map g.fields).WellKeyed := Generic.wellKeyed_declaration hg
    rw [Generic.declaration_eq, Node.merge_map]
    apply Settled.completed
    · rw [Node.keys_mergeEntries_eq_append hn, Generic.keys_fields]
      exact congrArg (_ ++ ·) (Entries.keys_filter _ fs).symm
    · intro e
      exact Node.mem_mergeEntries_iff hfields hn (Generic.plain_fields hg)
  · rw [Bool.not_eq_true] at hmap
    rw [Node.merge_eq_overlay (Or.inr hmap)]
    exact Settled.replaced hmap

theorem wellKeyed_genericEntries : (Node.map genericEntries).WellKeyed :=
  wellKeyed_genericFragment.value_of_mem List.mem_cons_self

theorem field?_genericEntries (hg : g ∈ Generic.all) :
    genericEntries.field? g.name = some g.declaration := by
  rw [← Entries.mem_iff_field? wellKeyed_genericEntries]
  exact List.mem_map_of_mem hg

theorem keys_genericEntries : genericEntries.keys = genericNames.map .str := rfl

/-- **The parameters.** Generic ones come first, and no declared one is lost. -/
theorem layered_mergeEntries (hps : (Node.map ps).WellKeyed) :
    Layered ps (Node.mergeEntries genericEntries ps) where
  keys := by
    rw [Node.keys_mergeEntries_eq_append hps, keys_genericEntries]
    exact congrArg (_ ++ ·) (Entries.keys_filter _ ps).symm
  generic g hg := by
    have hfind : Entries.field? g.name (Node.mergeEntries genericEntries ps) =
        Node.laidOver (some g.declaration) (ps.field? g.name) := by
      unfold Entries.field?
      rw [Node.find?_mergeEntries hps (.str g.name)]
      exact congrArg (Node.laidOver · _) (field?_genericEntries hg)
    rw [hfind]
    cases hdeclared : ps.field? g.name with
    | none => exact ⟨g.declaration, rfl, Settled.undeclared⟩
    | some n =>
      have hn : n.WellKeyed := Entries.wellKeyed_of_find? hps hdeclared
      exact ⟨g.declaration.merge n, rfl, settled_merge hg hn⟩
  others := by
    rw [Node.mergeEntries_eq_append wellKeyed_genericEntries hps, keys_genericEntries]
    unfold Entries.besides
    rw [List.filter_append, List.filter_filter]
    have hgeneric : ∀ e ∈ genericEntries,
        (genericNames.map Node.str).any e.1.same = true := by
      intro e he
      have hkey : e.1 ∈ genericNames.map Node.str := List.mem_map_of_mem he
      exact List.any_eq_true.2 ⟨e.1, hkey, Node.same_refl _⟩
    rw [List.filter_eq_nil_iff.2, List.nil_append]
    · simp only [Bool.and_self]
    · intro e he
      obtain ⟨d, hd, rfl⟩ := List.mem_map.1 he
      simp [hgeneric d hd]

/-! ### Attributes of a kind -/

theorem wellKeyed_of_declares (hfields : (Node.map fields).WellKeyed) (h : Declares fields ps) :
    (Node.map ps).WellKeyed := by
  cases h with
  | absent => exact Node.wellKeyed_empty
  | null => exact Node.wellKeyed_empty
  | map h => exact Entries.wellKeyed_of_find? hfields h

/-- **The attributes.** The parameters come to stand in front of all others. -/
theorem layeredFields_eq_cons (hfields : (Node.map fields).WellKeyed) (h : Declares fields ps) :
    layeredFields fields = (.str parametersKey, .map (Node.mergeEntries genericEntries ps)) ::
      fields.besides [parametersKey] := by
  have hbase : (Node.map [(.str parametersKey, .map genericEntries)]).WellKeyed :=
    wellKeyed_genericFragment
  have hparameters : ((settledFields fields).field? parametersKey).elim (.map genericEntries)
      (Node.map genericEntries).merge = .map (Node.mergeEntries genericEntries ps) := by
    rw [field?_settledFields]
    cases h with
    | absent h => rw [h]; rfl
    | null h hnull =>
      have hempty : emptyIfNull _ = .map [] := if_pos hnull
      rw [h, Option.map_some, Option.elim_some, hempty, Node.merge_map]
    | map h =>
      rw [h, Option.map_some, Option.elim_some]
      exact Node.merge_map genericEntries ps
  rw [layeredFields, Node.mergeEntries_eq_append hbase (wellKeyed_settledFields hfields)]
  have hothers : (settledFields fields).besides [parametersKey] = fields.besides [parametersKey] :=
    Entries.besides_modify List.mem_cons_self emptyIfNull fields
  rw [← hothers, ← hparameters]
  rfl

/-! ### Documents -/

/-- An entry that is no mapping of a kind is left as it is. -/
theorem mem_underlayKinds {e : Node × Node} (he : e ∈ es)
    (h : (∀ kind : Kind, e.1 ≠ .str kind.key) ∨ e.2.isMap = false) : e ∈ underlayKinds es := by
  apply underlayKinds_induction (P := (e ∈ ·)) he
  intro fs k hfs
  have hentry : e.1 = .str k.key → underlayGenerics e.2 = e.2 := by
    intro hkey
    rcases h with h | h
    · exact absurd hkey (h k)
    · exact underlayGenerics_of_not_isMap h
  induction fs with
  | nil => exact absurd hfs List.not_mem_nil
  | cons d fs ih =>
    obtain ⟨l, v⟩ := d
    rw [Entries.modify]
    rcases List.mem_cons.1 hfs with rfl | hfs
    · split
      · rename_i hl
        rw [hentry (Node.same_str_iff.1 hl)]
        exact List.mem_cons_self
      · exact List.mem_cons_self
    · split
      · exact List.mem_cons_of_mem _ hfs
      · exact List.mem_cons_of_mem _ (ih hfs)

/-- The parameters of a module, in the order of the keys. -/
theorem texts_of_ofDocument {registry : Registry} {path : Path} {document : Node} {m : Module}
    {qs : Entries} (h : Module.ofDocument registry path document = .ok m)
    (hqs : parametersOf? m.role.kind document = some (.map qs)) :
    m.parameters.map (fun d => some d.name) = qs.keys.map Node.text? := by
  obtain ⟨fields, _, hclassify, hparameters, _⟩ := ofDocument_eq_ok h
  rw [parametersOf?_of_classify hclassify] at hqs
  rw [Attributes.declarations_of_map hqs, mapM_eq_ok_iff] at hparameters
  have htexts := texts_eq_of_forall₂ (hparameters.imp fun _ _ => Attributes.name_of_declaration)
  rw [← htexts, Entries.keys, List.map_map]
  rfl

/-- **Declared over generic.** A document without a tag, and without a key that is there twice,
keeps its keys, in their order, and every entry that is no mapping of a kind. A mapping of a kind
gets its parameters in front and keeps its other attributes, in their order; its parameters are the
declared ones over the generic ones. A module that is read from the document has these parameters,
in the order of their keys. -/
theorem withGenerics_keeps_declared (hes : (Node.map es).WellKeyed) :
    ∃ fs : Entries, withGenerics (.map es) = .map fs ∧ fs.keys = es.keys ∧
      (∀ e ∈ es, (∀ kind : Kind, e.1 ≠ .str kind.key) ∨ e.2.isMap = false → e ∈ fs) ∧
      ∀ (kind : Kind) (fields ps : Entries), es.field? kind.key = some (.map fields) →
        Declares fields ps →
        ∃ qs : Entries, Layered ps qs ∧
          fs.field? kind.key =
            some (.map ((.str parametersKey, .map qs) :: fields.besides [parametersKey])) ∧
          ∀ registry path m, Module.ofDocument registry path (.map fs) = .ok m →
            m.parameters.map (fun d => some d.name) = qs.keys.map Node.text? := by
  refine ⟨underlayKinds es, withGenerics_map es, keys_underlayKinds es,
    fun e he => mem_underlayKinds he, ?_⟩
  intro kind fields ps hfields hdeclares
  have hwell : (Node.map fields).WellKeyed := Entries.wellKeyed_of_find? hes hfields
  have hlayered : (underlayKinds es).field? kind.key = some (.map
      ((.str parametersKey, .map (Node.mergeEntries genericEntries ps)) ::
        fields.besides [parametersKey])) := by
    rw [underlayKinds, field?_withGenerics, hfields, Option.map_some, underlayGenerics_eq_map,
      layeredFields_eq_cons hwell hdeclares]
  refine ⟨Node.mergeEntries genericEntries ps,
    layered_mergeEntries (wellKeyed_of_declares hwell hdeclares), hlayered, ?_⟩
  intro registry path m hm
  -- The kind is the only one that the document has the key of.
  have hkind : kind = m.role.kind := by
    obtain ⟨_, _, hclassify, _⟩ := ofDocument_eq_ok hm
    obtain ⟨top, htop, honly, _⟩ := classify_eq_ok_iff.1 hclassify
    obtain rfl : underlayKinds es = top := Option.some.inj htop
    apply (honly kind).1
    rw [Entries.hasField, hlayered]
    rfl
  apply texts_of_ofDocument hm
  rw [← hkind]
  show ((Entries.field? kind.key (underlayKinds es)).bind Node.entries?).bind _ = _
  rw [hlayered]
  rfl

/-- A parameter of its own, and another default for a generic one behind it. -/
def overridingParameters : Entries :=
  [(.str "x", .map [(.str "type", .str "integer"), (.str "default", .int 5),
      (.str "description", .str "x")]),
    (.str "debug", .map [(.str "default", .bool true)])]

/-- A plugin with these parameters, in front of the attributes that it has to have. -/
def overridingPlugin : Entries :=
  [(.str "version", .int 1),
    (.str "plugin", .map [(.str "parameters", .map overridingParameters), (.str "type", .str "p"),
      (.str "description", .str "d"), (.str "class", .str "C"), (.str "include", .str "c.h")])]

/-- The plugin is read, with `x` behind the generic parameters, and with debug messages. -/
theorem withGenerics_overridingPlugin :
    (Node.map overridingPlugin).WellKeyed ∧ ∃ (fs qs : Entries) (debug : Entries) (m : Module),
      withGenerics (.map overridingPlugin) = .map fs ∧
        Module.ofDocument Registry.builtin ⟨"a.yml"⟩ (.map fs) = .ok m ∧
        m.parameters.map (fun d => some d.name) =
          ["debug", "trace", "log-target", "log-level", "log-file", "x"].map some ∧
        Layered overridingParameters qs ∧ qs.field? "debug" = some (.map debug) ∧
        (.str "default", .bool true) ∈ debug := by
  have hwell : (Node.map overridingPlugin).WellKeyed := by
    simp [overridingPlugin, overridingParameters, Entries.keysDistinct, Node.same]
  obtain ⟨fs, hfs, _, _, hkinds⟩ := withGenerics_keeps_declared hwell
  obtain ⟨qs, hlayered, _, hread⟩ :=
    hkinds .plugin _ overridingParameters rfl (Declares.map rfl)
  have hloads : (Module.ofDocument Registry.builtin ⟨"a.yml"⟩
      (withGenerics (.map overridingPlugin))).toBool = true := by
    decide +kernel
  rw [hfs] at hloads
  obtain ⟨m, hm⟩ := exists_of_toBool hloads
  have hnames := hread _ _ m hm
  rw [hlayered.keys] at hnames
  obtain ⟨n, hdebug, hsettled⟩ := hlayered.generic _ List.mem_cons_self
  have hsettled : Settled _ (some (.map [(.str "default", .bool true)])) n := hsettled
  cases hsettled with
  | replaced h => cases h
  | completed _ hmem =>
    have hdefault := (hmem (.str "default", .bool true)).2 (Or.inl List.mem_cons_self)
    exact ⟨hwell, fs, qs, _, m, hfs, hm, hnames, hlayered, hdebug, hdefault⟩

end Foundry
