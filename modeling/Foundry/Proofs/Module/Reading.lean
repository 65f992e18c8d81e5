import Foundry.Module.Reader
import Foundry.Proofs.Result

/-!
# What reading a module finds

When `Module.ofDocument` ends well, the document declares one kind, and the parameters are those of
that kind's mapping, under their names and in their order.

* `classify_eq_ok_iff`: which documents declare which kind.
* `names_of_ofDocument`: the names of the parameters are what the document declares
  (`declaredNames`); `parametersOf?_cases` says where it may declare them.
-/

namespace Foundry

open Parameter Yaml

variable {registry : Registry} {path : Path} {document : Node} {kind : Kind} {fields : Entries}
  {m : Module}

/-! ### Kinds -/

theorem Kind.mem_all (kind : Kind) : kind ∈ Kind.all := by
  cases kind <;> decide

/-- One kind is declared exactly if it is declared and no other one is. -/
theorem Kind.filter_eq_singleton_iff {declares : Kind → Bool} :
    Kind.all.filter declares = [kind] ↔ ∀ other, declares other = true ↔ other = kind := by
  constructor
  · intro h other
    have hmem : other ∈ Kind.all.filter declares ↔ other ∈ [kind] := by rw [h]
    rw [List.mem_filter, List.mem_singleton] at hmem
    rw [← hmem, and_iff_right (Kind.mem_all other)]
  · intro h
    have hdeclares : declares = fun other => decide (other = kind) := by
      funext other
      rw [Bool.eq_iff_iff, h, decide_eq_true_iff]
    rw [hdeclares]
    cases kind <;> decide

/-- A document declares a kind if it has the key of no other one, and a mapping at its own. -/
theorem classify_eq_ok_iff :
    classify path document = .ok (kind, fields) ↔
      ∃ top, document.entries? = some top ∧
        (∀ other : Kind, top.hasField other.key = true ↔ other = kind) ∧
        (top.field? kind.key).bind Node.entries? = some fields := by
  unfold classify
  dsimp only
  split
  · rename_i hnone
    simp [hnone]
  · rename_i top htop
    simp only [htop, Option.some.injEq, exists_eq_left', ← Kind.filter_eq_singleton_iff]
    split
    · rename_i hnone
      simp [hnone]
    · rename_i one hone
      rw [hone]
      split
      · rename_i found hfound
        rw [Except.ok.injEq, Prod.mk.injEq, List.singleton_inj]
        constructor
        · rintro ⟨rfl, rfl⟩
          exact ⟨rfl, hfound⟩
        · rintro ⟨rfl, h⟩
          rw [hfound, Option.some.injEq] at h
          exact ⟨rfl, h⟩
      · rename_i hnone
        constructor
        · intro h
          cases h
        · rintro ⟨hkind, h⟩
          rw [List.singleton_inj] at hkind
          rw [hkind, h] at hnone
          cases hnone
    · rename_i several _ hseveral
      constructor
      · intro h
        cases h
      · rintro ⟨h, _⟩
        exact absurd h (hseveral kind)

/-! ### Parameters -/

/-- The value of `parameters` in the mapping of a kind, read through tags around the document and
around the mapping. -/
def parametersOf? (kind : Kind) (document : Node) : Option Node :=
  ((document.entries?.bind (·.field? kind.key)).bind Node.entries?).bind (·.field? parametersKey)

/-- The names of the parameters that a mapping declares. -/
def namesOf (es : Entries) : List String :=
  es.filterMap (·.1.text?)

/-- The names of the parameters that a document declares for a kind. -/
def declaredNames (kind : Kind) (document : Node) : List String :=
  match parametersOf? kind document with
  | some (.map es) => namesOf es
  | _ => []

/-- **Reading a parameter.** What was found, when a parameter is read. -/
theorem Declaration.ofEntry_eq_ok {name : String} {entry : Node} {d : Declaration}
    (h : Declaration.ofEntry registry path name entry = .ok d) :
    ∃ fields typeName description converter default advanced, entry.entries? = some fields ∧
      (⟨fields, path, .parameter name⟩ : Attributes).text "type" = .ok typeName ∧
      (⟨fields, path, .parameter name⟩ : Attributes).text "description" = .ok description ∧
      registry.lookup typeName = .ok converter ∧
      converter.convert ((fields.field? "default").getD .null) = .ok default ∧
      d = ⟨name, typeName, converter.ccType, (fields.field? "default").getD .null, default,
        escapeBreaks description, advanced⟩ := by
  unfold Declaration.ofEntry at h
  dsimp only at h
  split at h
  · cases h
  · rename_i fields hfields
    obtain ⟨_, _, h⟩ := bind_eq_ok_iff.1 h
    obtain ⟨typeName, htype, h⟩ := bind_eq_ok_iff.1 h
    obtain ⟨description, hdescription, h⟩ := bind_eq_ok_iff.1 h
    obtain ⟨converter, hconverter, h⟩ := bind_eq_ok_iff.1 h
    obtain ⟨default, hdefault, h⟩ := bind_eq_ok_iff.1 h
    rw [mapError_eq_ok_iff] at hconverter hdefault
    have hd : ∃ advanced, d = ⟨name, typeName, converter.ccType,
        (fields.field? "default").getD .null, default, escapeBreaks description, advanced⟩ := by
      split at h
      all_goals
        obtain ⟨advanced, _, h⟩ := bind_eq_ok_iff.1 h
        exact ⟨advanced, (Except.ok.inj h).symm⟩
    obtain ⟨advanced, hd⟩ := hd
    exact ⟨fields, typeName, description, converter, default, advanced, hfields, htype,
      hdescription, hconverter, hdefault, hd⟩

theorem name_of_ofEntry {name : String} {entry : Node} {d : Declaration}
    (h : Declaration.ofEntry registry path name entry = .ok d) : d.name = name := by
  obtain ⟨_, _, _, _, _, _, _, _, _, _, _, rfl⟩ := Declaration.ofEntry_eq_ok h
  rfl

/-- Reads one parameter; the text of its key is its name. -/
def Attributes.declaration (a : Attributes) (registry : Registry) (e : Node × Node) :
    Except DescriptorError Declaration :=
  match e.1.text? with
  | some name => Declaration.ofEntry registry a.path name e.2
  | none => .error (a.refuse parametersKey .nameNotScalar)

/-- A parameter has the text of its key for a name. -/
theorem Attributes.name_of_declaration {a : Attributes} {e : Node × Node} {d : Declaration}
    (h : a.declaration registry e = .ok d) : e.1.text? = some d.name := by
  unfold declaration at h
  split at h
  · rename_i name hname
    rw [hname, name_of_ofEntry h]
  · cases h

/-- The parameters of a mapping are read one by one, in its order. -/
theorem Attributes.declarations_of_map {a : Attributes} {es : Entries}
    (h : a.fields.field? parametersKey = some (.map es)) :
    a.declarations registry = es.mapM (a.declaration registry) := by
  rw [declarations, h]
  rfl

theorem texts_eq_of_forall₂ {es : Entries} {ds : List Declaration}
    (h : List.Forall₂ (fun e d => e.1.text? = some d.name) es ds) :
    es.map (·.1.text?) = ds.map fun d => some d.name := by
  induction h with
  | nil => rfl
  | cons hname _ ih => rw [List.map_cons, List.map_cons, ih, hname]

/-- Parameters that are read one by one have the names that are declared, in their order. -/
theorem names_eq_of_forall₂ {es : Entries} {ds : List Declaration}
    (h : List.Forall₂ (fun e d => e.1.text? = some d.name) es ds) :
    namesOf es = ds.map (·.name) := by
  have hnames : namesOf es = (es.map (·.1.text?)).filterMap id := by
    rw [List.filterMap_map]
    rfl
  rw [hnames, texts_eq_of_forall₂ h, List.filterMap_map]
  exact congrFun List.filterMap_eq_map' ds

/-- The parameters are absent, null or a mapping, and have the names of its keys. -/
theorem Attributes.declarations_cases {a : Attributes} {ds : List Declaration}
    (h : a.declarations registry = .ok ds) :
    ((a.fields.field? parametersKey = none ∨ a.fields.field? parametersKey = some .null) ∧
      ds = []) ∨
    ∃ es, a.fields.field? parametersKey = some (.map es) ∧ ds.map (·.name) = namesOf es := by
  unfold declarations at h
  split at h
  · rename_i hnone
    exact Or.inl ⟨Or.inl hnone, (Except.ok.inj h).symm⟩
  · rename_i hnull
    exact Or.inl ⟨Or.inr hnull, (Except.ok.inj h).symm⟩
  · rename_i es hes
    have hread : es.mapM (a.declaration registry) = .ok ds := h
    rw [mapM_eq_ok_iff] at hread
    have hnames := names_eq_of_forall₂ (hread.imp fun _ _ => name_of_declaration)
    exact Or.inr ⟨es, hes, hnames.symm⟩
  · cases h

/-! ### Steps of reading -/

namespace Attributes

/-- The role of a module of a kind. -/
def role (a : Attributes) : Kind → Except DescriptorError Role
  | .component => do
    let implementation ← a.text "implementation"
    let priority ← a.integer "priority"
    pure (.component implementation priority)
  | .plugin => pure .plugin
  | .backend => pure .backend

/-- The code that discovers a module of a kind, if it has some. -/
def discover (a : Attributes) (kind : Kind) : Except DescriptorError (Option String) :=
  if kind = .plugin then pure none else a.optionalText "discover"

/-- What is read before the parameters. -/
def head (a : Attributes) (kind : Kind) :
    Except DescriptorError (String × Role × Option String) := do
  let identifier ← a.text (if a.fields.hasField "type" then "type" else "name")
  let role ← a.role kind
  let discover ← a.discover kind
  pure (identifier, role, discover)

/-- What is read after the parameters. -/
def rest (a : Attributes) : Except DescriptorError (String × String × List String) := do
  let description ← a.text "description"
  let className ← a.text "class"
  let includes ← a.texts "include"
  pure (description, className, includes)

theorem kind_of_role {a : Attributes} {role : Role} (h : a.role kind = .ok role) :
    role.kind = kind := by
  cases kind with
  | component =>
    obtain ⟨_, _, h⟩ := bind_eq_ok_iff.1 h
    obtain ⟨_, _, h⟩ := bind_eq_ok_iff.1 h
    rw [← Except.ok.inj h]
    rfl
  | plugin | backend =>
    rw [← Except.ok.inj h]
    rfl

theorem kind_of_head {a : Attributes} {identifier : String} {role : Role}
    {discover : Option String} (h : a.head kind = .ok (identifier, role, discover)) :
    role.kind = kind := by
  obtain ⟨_, _, h⟩ := bind_eq_ok_iff.1 h
  obtain ⟨_, hrole, h⟩ := bind_eq_ok_iff.1 h
  obtain ⟨_, _, h⟩ := bind_eq_ok_iff.1 h
  obtain ⟨_, heq⟩ := Prod.mk.inj (Except.ok.inj h)
  obtain ⟨rfl, _⟩ := Prod.mk.inj heq
  exact kind_of_role hrole

end Attributes

/-- The parameters are read between the other attributes, once nothing is missing. -/
theorem ofDocument_eq_bind (h : classify path document = .ok (kind, fields)) :
    Module.ofDocument registry path document = (do
      let a : Attributes := ⟨fields, path, .module kind⟩
      a.require (missingAttributes kind fields)
      let (identifier, role, discover) ← a.head kind
      let parameters ← a.declarations registry
      let (description, className, includes) ← a.rest
      pure
        { source := path, identifier, description := escapeBreaks description, className, includes
          discover, parameters, role }) := by
  have hclassify : classify path document = pure (kind, fields) := h
  unfold Module.ofDocument Attributes.head Attributes.rest
  rw [hclassify, pure_bind]
  cases kind <;>
    simp only [Attributes.role, Attributes.discover, bind_assoc, pure_bind, reduceCtorEq, if_true,
      if_false]

/-- What a module that is read takes from its fields. -/
theorem ofDocument_eq_ok (h : Module.ofDocument registry path document = .ok m) :
    ∃ fields d, classify path document = .ok (m.role.kind, fields) ∧
      (⟨fields, path, .module m.role.kind⟩ : Attributes).declarations registry =
        .ok m.parameters ∧
      (⟨fields, path, .module m.role.kind⟩ : Attributes).text "description" = .ok d ∧
      m.description = escapeBreaks d := by
  obtain ⟨⟨kind, fields⟩, hclassify, _⟩ := bind_eq_ok_iff.1 h
  rw [ofDocument_eq_bind hclassify] at h
  obtain ⟨_, _, h⟩ := bind_eq_ok_iff.1 h
  obtain ⟨⟨identifier, role, discover⟩, hhead, h⟩ := bind_eq_ok_iff.1 h
  obtain ⟨ds, hparameters, h⟩ := bind_eq_ok_iff.1 h
  obtain ⟨⟨d, className, includes⟩, hrest, h⟩ := bind_eq_ok_iff.1 h
  obtain ⟨d', hd, hrest⟩ := bind_eq_ok_iff.1 hrest
  obtain ⟨_, _, hrest⟩ := bind_eq_ok_iff.1 hrest
  obtain ⟨_, _, hrest⟩ := bind_eq_ok_iff.1 hrest
  obtain ⟨rfl, _⟩ := Prod.mk.inj (Except.ok.inj hrest)
  obtain rfl := Except.ok.inj h
  obtain rfl := Attributes.kind_of_head hhead
  exact ⟨fields, d', hclassify, hparameters, hd, rfl⟩

theorem parametersOf?_of_classify (h : classify path document = .ok (kind, fields)) :
    parametersOf? kind document = fields.field? parametersKey := by
  obtain ⟨top, htop, _, hfields⟩ := classify_eq_ok_iff.1 h
  rw [parametersOf?, htop, Option.bind_some, hfields, Option.bind_some]

/-- Where the parameters of a module are declared, if any are. -/
theorem parametersOf?_cases (h : Module.ofDocument registry path document = .ok m) :
    parametersOf? m.role.kind document = none ∨ parametersOf? m.role.kind document = some .null ∨
      ∃ es, parametersOf? m.role.kind document = some (.map es) := by
  obtain ⟨fields, _, hclassify, hparameters, _⟩ := ofDocument_eq_ok h
  rw [parametersOf?_of_classify hclassify]
  rcases Attributes.declarations_cases hparameters with ⟨hnone | hnull, _⟩ | ⟨es, hes, _⟩
  · exact Or.inl hnone
  · exact Or.inr (Or.inl hnull)
  · exact Or.inr (Or.inr ⟨es, hes⟩)

/-- **Parameters are named by the document.** -/
theorem names_of_ofDocument (h : Module.ofDocument registry path document = .ok m) :
    m.parameters.map (·.name) = declaredNames m.role.kind document := by
  obtain ⟨fields, _, hclassify, hparameters, _⟩ := ofDocument_eq_ok h
  rw [declaredNames, parametersOf?_of_classify hclassify]
  rcases Attributes.declarations_cases hparameters with ⟨hnone | hnull, hnil⟩ | ⟨es, hes, hnames⟩
  · dsimp only at hnone hnil
    rw [hnone, hnil, List.map_nil]
  · dsimp only at hnull hnil
    rw [hnull, hnil, List.map_nil]
  · dsimp only at hes
    rw [hes, hnames]

end Foundry
