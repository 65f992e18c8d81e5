import Foundry.Proofs.Artifact.Layout
import Foundry.Proofs.Module.Relocation
import Foundry.Proofs.Related
import Foundry.Request

/-!
# What a request generates

A request fails over its shape, whatever the files are, or else over the first of its inputs that
describes no module, or else there is a text. The text of a loader has one directive and one
registration for each input in its place, and each registration is of the class that a factory
header for this input alone declares.

* `plan_cases`: what becomes of the shape of a request, with `Misshapen` for its faults.
* `generate_eq_error_iff`: when a request fails, and how.
* `registers_of_load`: what a registration says, against the factory header for the input alone.
* `lists_text`: where the headers and the registrations stand in the text of a loader.
* `exists_loader_of_inputs`: the headers and registrations of inputs, the same in every loader.
* `generate_outcome`: all of it together.
-/

namespace Foundry

open Artifact Parameter

variable {tree : FileTree} {registry : Registry} {r : Request} {mode : Mode} {inputs : List Path}
  {input : Path} {roots : Roots} {e : RequestError} {m : Module}

/-! ### Shapes -/

/-- The text was not given, or given without a character. -/
def Absent (s : Option String) : Prop :=
  s = none ∨ s = some ""

theorem given?_cases (s : Option String) :
    (Absent s ∧ given? s = none) ∨ ¬ Absent s ∧ given? s = s := by
  cases s with
  | none => exact Or.inl ⟨Or.inl rfl, rfl⟩
  | some text =>
    rw [given?, Option.filter_some]
    by_cases hempty : text = ""
    · subst hempty
      exact Or.inl ⟨Or.inr rfl, rfl⟩
    · refine Or.inr ⟨by simp [Absent, hempty], if_pos ?_⟩
      simpa using hempty

theorem demand_of_absent {fact : LoaderFact} {s : Option String} (h : Absent s) :
    demand fact s = .error (.missing fact) := by
  rcases given?_cases s with ⟨_, hs⟩ | ⟨hpresent, _⟩
  · rw [demand, hs]
  · exact absurd h hpresent

theorem exists_demand {s : Option String} (h : ¬ Absent s) :
    ∃ text, s = some text ∧ ∀ fact, demand fact s = .ok text := by
  rcases given?_cases s with ⟨habsent, _⟩ | ⟨_, hs⟩
  · exact absurd habsent h
  · cases s with
    | none => exact absurd (Or.inl rfl) h
    | some text => exact ⟨text, rfl, fun fact => by rw [demand, hs]⟩

/-- What is wrong with the shape of a request. A name is missed before a version is. -/
inductive Request.Misshapen : Request → RequestError → Prop
  | noInputs (mode : Mode) (roots : Roots) : Misshapen ⟨mode, [], roots⟩ .noInputs
  | tooManyInputs {inputs : List Path} (roots : Roots) (many : 1 < inputs.length) :
    Misshapen ⟨.factory, inputs, roots⟩ (.tooManyInputs inputs.length)
  | noName {inputs : List Path} {name : Option String} (version : Option String) (roots : Roots)
    (some_input : inputs ≠ []) (absent : Absent name) :
    Misshapen ⟨.dynamicLoader name version, inputs, roots⟩ (.missing .name)
  | noVersion {inputs : List Path} {name version : Option String} (roots : Roots)
    (some_input : inputs ≠ []) (present : ¬ Absent name) (absent : Absent version) :
    Misshapen ⟨.dynamicLoader name version, inputs, roots⟩ (.missing .version)

/-- The packaging of the loaders that a mode asks for. -/
def Packs : Mode → Packaging → Prop
  | .staticLoader _, .linked _ => True
  | .dynamicLoader name version, .loadable _ n v => name = some n ∧ version = some v
  | _, _ => False

/-- A request with a fault in its shape has no plan, and the fault is told. -/
theorem plan_of_misshapen (h : r.Misshapen e) : r.plan = .error e := by
  cases h with
  | noInputs mode roots => exact Request.plan_nil mode roots
  | tooManyInputs roots many =>
    rename_i inputs
    -- More than one: no other list has that length.
    match inputs, many with
    | _ :: _ :: _, _ => rfl
  | noName version roots some_input absent =>
    obtain ⟨input, inputs, rfl⟩ := List.exists_cons_of_ne_nil some_input
    simp only [Request.plan, demand_of_absent absent]
    rfl
  | noVersion roots some_input present absent =>
    obtain ⟨input, inputs, rfl⟩ := List.exists_cons_of_ne_nil some_input
    obtain ⟨name, -, hname⟩ := exists_demand present
    simp only [Request.plan, hname, demand_of_absent absent]
    rfl

/-- **What becomes of a shape.** It is refused, or a factory of one input is planned, or a loader of
all inputs in the packaging of the mode. -/
theorem plan_cases (r : Request) :
    (∃ e, r.Misshapen e) ∨
      (∃ input, r.mode = .factory ∧ r.inputs = [input] ∧ r.plan = .ok (.factory input)) ∨
      ∃ packaging, r.mode ≠ .factory ∧ Packs r.mode packaging ∧
        r.plan = .ok (.loader r.inputs packaging) := by
  obtain ⟨mode, inputs, roots⟩ := r
  rcases inputs with _ | ⟨input, inputs⟩
  · exact Or.inl ⟨_, .noInputs mode roots⟩
  have some_input : input :: inputs ≠ [] := List.cons_ne_nil _ _
  cases mode with
  | factory =>
    rcases inputs with _ | ⟨second, inputs⟩
    · exact Or.inr (Or.inl ⟨input, rfl, rfl, rfl⟩)
    · exact Or.inl ⟨_, .tooManyInputs roots (by simp)⟩
  | staticLoader moduleName =>
    refine Or.inr (Or.inr
      ⟨.linked (identifierStem ((given? moduleName).getD defaultModuleName)), nofun, trivial, ?_⟩)
    cases inputs <;> rfl
  | dynamicLoader name version =>
    by_cases hname : Absent name
    · exact Or.inl ⟨_, .noName version roots some_input hname⟩
    by_cases hversion : Absent version
    · exact Or.inl ⟨_, .noVersion roots some_input hname hversion⟩
    obtain ⟨n, rfl, hn⟩ := exists_demand hname
    obtain ⟨v, rfl, hv⟩ := exists_demand hversion
    refine Or.inr (Or.inr ⟨.loadable (identifierStem n) n v, nofun, ⟨rfl, rfl⟩, ?_⟩)
    simp only [Request.plan, hn, hv]
    rfl

/-! ### Failures -/

/-- The first of some inputs that describes no module, and why it does not. -/
def FirstRefused (tree : FileTree) (registry : Registry) (inputs : List Path)
    (cause : DescriptorError) : Prop :=
  ∃ before input after, inputs = before ++ input :: after ∧
    (∀ q ∈ before, ∃ m, Module.load tree registry q = .ok m) ∧
    Module.load tree registry input = .error cause

/-- Loading fails over the first input that describes no module. -/
theorem loadModules_eq_error_iff :
    tree.loadModules registry inputs = .error e ↔
      ∃ cause, FirstRefused tree registry inputs cause ∧ e = .descriptor cause := by
  rw [FileTree.loadModules, mapM_eq_error_iff]
  simp only [FileTree.loadModule, mapError_eq_ok_iff, mapError_eq_error_iff, FirstRefused]
  constructor
  · rintro ⟨before, input, after, hinputs, hbefore, cause, hcause, he⟩
    exact ⟨cause, ⟨before, input, after, hinputs, hbefore, hcause⟩, he⟩
  · rintro ⟨cause, ⟨before, input, after, hinputs, hbefore, hcause⟩, he⟩
    exact ⟨before, input, after, hinputs, hbefore, cause, hcause, he⟩

theorem generate_of_misshapen (h : r.Misshapen e) : r.generate tree registry = .error e := by
  rw [Request.generate, plan_of_misshapen h]
  rfl

theorem not_misshapen_of_plan {plan : Plan} (h : r.plan = .ok plan) (e : RequestError) :
    ¬ r.Misshapen e := by
  intro hmisshapen
  rw [plan_of_misshapen hmisshapen] at h
  cases h

theorem generate_of_plan_factory (h : r.plan = .ok (.factory input)) :
    r.generate tree registry =
      (tree.loadModule registry input).map fun m => (Factory.ofModule m).text := by
  rw [Request.generate, h]
  show (tree.loadModule registry input >>= fun m => _) = _
  cases tree.loadModule registry input <;> rfl

theorem generate_of_plan_loader {packaging : Packaging}
    (h : r.plan = .ok (.loader inputs packaging)) :
    r.generate tree registry =
      (tree.loadModules registry inputs).map fun ms =>
        (Loader.ofModules ms r.roots packaging).text := by
  rw [Request.generate, h]
  show (tree.loadModules registry inputs >>= fun ms => _) = _
  cases tree.loadModules registry inputs <;> rfl

/-- A request whose shape is not refused makes its text from the modules of its inputs. -/
theorem exists_text (h : ∀ e, ¬ r.Misshapen e) : ∃ text : List Module → String,
    ∀ tree registry, r.generate tree registry = (tree.loadModules registry r.inputs).map text := by
  rcases plan_cases r with ⟨e, he⟩ | ⟨input, _, hinputs, hplan⟩ | ⟨packaging, _, _, hplan⟩
  · exact absurd he (h e)
  · refine ⟨fun ms => (ms.map fun m => (Factory.ofModule m).text).headD "", fun tree registry => ?_⟩
    rw [generate_of_plan_factory hplan, hinputs, FileTree.loadModules, List.mapM_cons,
      List.mapM_nil]
    cases tree.loadModule registry input <;> rfl
  · exact ⟨_, fun tree registry => generate_of_plan_loader hplan⟩

/-- **When a request fails.** Over its shape, or else over the first input without a module. -/
theorem generate_eq_error_iff :
    r.generate tree registry = .error e ↔ r.Misshapen e ∨
      (∀ fault, ¬ r.Misshapen fault) ∧
        ∃ cause, FirstRefused tree registry r.inputs cause ∧ e = .descriptor cause := by
  by_cases hshape : ∃ fault, r.Misshapen fault
  · obtain ⟨fault, hfault⟩ := hshape
    rw [generate_of_misshapen hfault, Except.error.injEq]
    constructor
    · rintro rfl
      exact Or.inl hfault
    · rintro (he | ⟨hnone, _⟩)
      · have hplan := plan_of_misshapen hfault
        rw [plan_of_misshapen he] at hplan
        exact (Except.error.inj hplan).symm
      · exact absurd hfault (hnone fault)
  · rw [not_exists] at hshape
    obtain ⟨text, htext⟩ := exists_text hshape
    rw [htext, map_eq_error_iff, loadModules_eq_error_iff, or_iff_right (hshape e),
      and_iff_right hshape]

/-! ### Loaders -/

/-- A module remembers the input that it was loaded from. -/
theorem source_of_load (h : Module.load tree registry input = .ok m) : m.source = input := by
  obtain ⟨document, _, hread⟩ := bind_eq_ok_iff.1 h
  -- Reading in the same place tells the module of this place.
  have hretold := Module.ofDocument_retold (p := input) input registry (withGenerics document)
  rw [hread] at hretold
  exact congrArg Module.source (Except.ok.inj hretold)

theorem loadModules_eq_ok_iff {ms : List Module} :
    tree.loadModules registry inputs = .ok ms ↔
      List.Forall₂ (fun q m => Module.load tree registry q = .ok m) inputs ms := by
  rw [FileTree.loadModules, mapM_eq_ok_iff]
  simp only [FileTree.loadModule, mapError_eq_ok_iff]

/-- The accessor of the manager of a kind, and the template that the factory classes of the kind
are made from. -/
inductive Kind.Managed : Kind → String → String → Prop
  | component : Managed .component "get_component_manager" "ComponentFactory"
  | plugin : Managed .plugin "get_plugin_manager" "PluginFactory"
  | backend : Managed .backend "get_backend_manager" "BackendFactory"

/-- Every kind has its manager and its template. -/
theorem Kind.managed (k : Kind) : k.Managed k.manager k.factoryBase := by
  cases k with
  | component => exact .component
  | plugin => exact .plugin
  | backend => exact .backend

/-- The input describes a module, and the registration is of its class: the factory header for the
input alone, wherever its roots are, declares this class and no other, and the base of the class is
the template of the kind whose manager is told. -/
def Registers (tree : FileTree) (registry : Registry) (input : Path)
    (registration : Registration) : Prop :=
  ∃ m template before after, Module.load tree registry input = .ok m ∧
    m.role.kind.Managed registration.manager template ∧
    (∀ roots, (Request.mk .factory [input] roots).generate tree registry =
      .ok (String.join ((before ++
        Factory.declaration registration.factory template m.className :: after).map (· ++ "\n")))) ∧
    ∀ line ∈ before ++ after, ¬ Factory.classStart <+: line.toList

/-- **What a registration says.** It is of the class that the factory header for it declares. -/
theorem registers_of_load (h : Module.load tree registry input = .ok m) :
    Registers tree registry input (Registration.ofModule m) := by
  obtain ⟨before, after, hlines, hclass⟩ := (Factory.ofModule m).exists_class
  refine ⟨m, m.role.kind.factoryBase, before, after, h, m.role.kind.managed, fun roots => ?_,
    hclass⟩
  -- In factory mode the same module is loaded, whatever the roots are.
  have hload : tree.loadModule registry input = .ok m := by
    rw [FileTree.loadModule, h]
    rfl
  rw [generate_of_plan_factory rfl, hload]
  show Except.ok (Factory.ofModule m).text = _
  rw [Factory.text_eq_join, hlines]
  rfl

/-- A loader for inputs and their registrations, as it is written: one directive for the generated
header of each input and one line for each registration, in their order, and no other line of
either kind. -/
def Lists (roots : Roots) (inputs : List Path) (registrations : List Registration)
    (text : String) : Prop :=
  ∃ opening middle closing : List String,
    text = String.join ((opening ++ (inputs.map fun q => headerDirective (roots.header q)) ++
      middle ++ (registrations.map fun r => registrationLine r.manager r.factory) ++
      closing).map (· ++ "\n")) ∧
    ∀ line ∈ opening ++ middle ++ closing, Fixed line

/-- **What a loader lists.** The headers and the registrations of its inputs, and no others. -/
theorem lists_text (roots : Roots) (inputs : List Path) (registrations : List Registration)
    (packaging : Packaging) : Lists roots inputs registrations
      (Loader.mk (inputs.map roots.header) registrations packaging).text := by
  obtain ⟨opening, middle, closing, hlines, hfixed⟩ := Loader.exists_layout packaging
  refine ⟨opening, middle, closing, ?_, hfixed⟩
  rw [Loader.text_eq_join, hlines, List.map_map]
  rfl

/-- The headers and the registrations of inputs are the same in every loader over them. -/
theorem exists_loader_of_inputs (roots : Roots)
    (h : ∀ q ∈ inputs, ∃ m, Module.load tree registry q = .ok m) :
    ∃ registrations,
      List.Forall₂ (Registers tree registry) inputs registrations ∧
      ∀ mode, mode ≠ .factory → (∀ e, ¬ (Request.mk mode inputs roots).Misshapen e) →
        ∃ packaging, Packs mode packaging ∧
          (Request.mk mode inputs roots).generate tree registry =
            .ok (Loader.mk (inputs.map roots.header) registrations packaging).text := by
  obtain ⟨ms, hms⟩ := exists_forall₂ h
  refine ⟨ms.map Registration.ofModule, ?_, ?_⟩
  · rw [List.forall₂_map_right_iff]
    exact hms.imp fun _ _ => registers_of_load
  · intro mode hmode hshape
    rcases plan_cases ⟨mode, inputs, roots⟩ with
      ⟨e, he⟩ | ⟨_, hfactory, _⟩ | ⟨packaging, _, hpacks, hplan⟩
    · exact absurd he (hshape e)
    · exact absurd hfactory hmode
    · refine ⟨packaging, hpacks, ?_⟩
      have hheaders : ms.map (fun m => roots.header m.source) = inputs.map roots.header := by
        rw [← List.forall₂_eq_eq_eq, List.forall₂_map_left_iff, List.forall₂_map_right_iff]
        exact hms.flip.imp fun m q hm => congrArg roots.header (source_of_load hm)
      rw [generate_of_plan_loader hplan, loadModules_eq_ok_iff.2 hms]
      show Except.ok (Loader.ofModules ms roots packaging).text = _
      rw [Loader.ofModules, hheaders]

/-! ### The outcome of a request -/

/-- **What a request generates.** It fails over its shape, or else over the first of its inputs that
describes no module. Otherwise there is a text, and in both kinds of loaders over the same inputs it
lists the same headers and registrations, one for each input in its place. -/
theorem generate_outcome (tree : FileTree) (registry : Registry) :
    (∀ r e, Request.generate tree registry r = .error e ↔ r.Misshapen e ∨
      (∀ fault, ¬ r.Misshapen fault) ∧
        ∃ cause, FirstRefused tree registry r.inputs cause ∧ e = .descriptor cause) ∧
    ∀ inputs roots, (∀ q ∈ inputs, ∃ m, Module.load tree registry q = .ok m) →
      ∃ registrations,
        List.Forall₂ (Registers tree registry) inputs registrations ∧
        ∀ mode, mode ≠ .factory → (∀ e, ¬ (Request.mk mode inputs roots).Misshapen e) →
          ∃ packaging text, Packs mode packaging ∧
            (Request.mk mode inputs roots).generate tree registry = .ok text ∧
            text = (Loader.mk (inputs.map roots.header) registrations packaging).text ∧
            Lists roots inputs registrations text := by
  refine ⟨fun r e => generate_eq_error_iff, fun inputs roots h => ?_⟩
  obtain ⟨registrations, hregistrations, hloader⟩ := exists_loader_of_inputs roots h
  refine ⟨registrations, hregistrations, fun mode hmode hshape => ?_⟩
  obtain ⟨packaging, hpacks, htext⟩ := hloader mode hmode hshape
  exact ⟨packaging, _, hpacks, htext, rfl, lists_text roots inputs registrations packaging⟩

/-- A plugin and a backend. -/
def twoModules : FileTree :=
  ⟨[(["w"], .directory),
    (["w", "p.yml"],
      .file "plugin: \x7bname: gdb-server, description: d, class: C, include: c.h\x7d".toUTF8),
    (["w", "b.yml"],
      .file "backend: \x7btype: stdio, description: d, class: S, include: s.h\x7d".toUTF8)],
    ["w"]⟩

/-- The backend before the plugin and again behind it, in both kinds of loaders. -/
theorem generate_outcome_twoModules :
    [(⟨"b.yml"⟩ : Path), ⟨"p.yml"⟩, ⟨"b.yml"⟩].map (Roots.header ⟨⟨""⟩, ⟨"out"⟩⟩) =
      ["out/b.yml.h", "out/p.yml.h", "out/b.yml.h"] ∧
    ∃ registrations : List Registration, registrations.length = 3 ∧
      List.Forall₂ (Registers twoModules .builtin) [⟨"b.yml"⟩, ⟨"p.yml"⟩, ⟨"b.yml"⟩]
        registrations ∧
      ∀ mode ∈ [Mode.staticLoader none, .dynamicLoader (some "m") (some "1")],
        ∃ packaging text, Packs mode packaging ∧
          (Request.mk mode [⟨"b.yml"⟩, ⟨"p.yml"⟩, ⟨"b.yml"⟩] ⟨⟨""⟩, ⟨"out"⟩⟩).generate twoModules
            .builtin = .ok text ∧
          Lists ⟨⟨""⟩, ⟨"out"⟩⟩ [⟨"b.yml"⟩, ⟨"p.yml"⟩, ⟨"b.yml"⟩] registrations text := by
  have hload : ∀ q ∈ [(⟨"b.yml"⟩ : Path), ⟨"p.yml"⟩, ⟨"b.yml"⟩],
      ∃ m, Module.load twoModules Registry.builtin q = .ok m := by
    have hb : (Module.load twoModules Registry.builtin ⟨"b.yml"⟩).toBool = true := by
      decide +kernel
    have hp : (Module.load twoModules Registry.builtin ⟨"p.yml"⟩).toBool = true := by
      decide +kernel
    simp only [List.forall_mem_cons]
    exact ⟨exists_of_toBool hb, exists_of_toBool hp, exists_of_toBool hb, List.forall_mem_nil _⟩
  obtain ⟨registrations, hregisters, hloaders⟩ :=
    (generate_outcome twoModules Registry.builtin).2 _ ⟨⟨""⟩, ⟨"out"⟩⟩ hload
  refine ⟨by decide +kernel, registrations, hregisters.length_eq.symm, hregisters, ?_⟩
  simp only [List.forall_mem_cons]
  refine ⟨?_, ?_, List.forall_mem_nil _⟩
  · obtain ⟨packaging, text, hpacks, htext, _, hlists⟩ :=
      hloaders (.staticLoader none) nofun (not_misshapen_of_plan rfl)
    exact ⟨packaging, text, hpacks, htext, hlists⟩
  · obtain ⟨packaging, text, hpacks, htext, _, hlists⟩ :=
      hloaders (.dynamicLoader (some "m") (some "1")) nofun (not_misshapen_of_plan rfl)
    exact ⟨packaging, text, hpacks, htext, hlists⟩

end Foundry
