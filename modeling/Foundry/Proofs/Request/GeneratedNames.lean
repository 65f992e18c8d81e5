import Foundry.Proofs.Artifact.Identifier
import Foundry.Proofs.Request.Generation

/-!
# Names in generated texts

A factory header declares one class, named for the identifier of its module; a loader registers such
a class for each input, and declares a function or a namespace named for the loader itself. Neither
identifiers nor the names of loaders are looked at before: what is written is an identifier exactly
if the text it is made from is usable, and two inputs register one class exactly if their
identifiers differ in dashes only.

* `exists_loaderName`: what a loader is named for.
* `generated_names`: the names in every text that is generated.
-/

namespace Foundry

open Artifact Parameter

namespace Artifact.Packaging

/-- The name that a loader declares: of a registration function, or of a namespace. -/
def entry : Packaging → String
  | linked stem => stem ++ "_static_load"
  | loadable stem _ _ => stem ++ "_autogen"

/-- The line that declares it. -/
def entryLine : Packaging → String
  | linked stem => "void " ++ entry (linked stem) ++ "(ConfigManager &config)"
  | loadable stem name version => "namespace " ++ entry (loadable stem name version) ++ " \x7b"

/-- What the names of a loader start with. -/
def stem : Packaging → String
  | linked stem => stem
  | loadable stem _ _ => stem

end Artifact.Packaging

theorem Artifact.Loader.entryLine_mem_lines (l : Loader) : l.packaging.entryLine ∈ l.lines := by
  obtain ⟨headers, registrations, packaging⟩ := l
  cases packaging with
  | linked stem =>
    simp [lines, linkedLines, Packaging.entryLine, Packaging.entry, String.append_assoc]
  | loadable stem name version =>
    simp [lines, loadableLines, Packaging.entryLine, Packaging.entry]

/-- The name of the loaders that a mode asks for. -/
def Mode.loaderName : Mode → Option String
  | factory => none
  | staticLoader name => some ((given? name).getD defaultModuleName)
  | dynamicLoader name _ => given? name

variable {tree : FileTree} {registry : Registry} {r : Request} {inputs : List Path}
  {packaging : Packaging} {name text : String}

/-- **What a loader is named for.** -/
theorem exists_loaderName (h : r.plan = .ok (.loader inputs packaging)) :
    ∃ name, r.mode.loaderName = some name ∧ packaging.stem = identifierStem name := by
  obtain ⟨mode, inputs', roots⟩ := r
  rcases inputs' with _ | ⟨input, rest⟩
  · rw [Request.plan_nil] at h
    cases h
  cases mode with
  | factory => rcases rest with _ | ⟨second, rest⟩ <;> cases h
  | staticLoader moduleName =>
    have hplan : (Request.mk (.staticLoader moduleName) (input :: rest) roots).plan =
        .ok (.loader (input :: rest)
          (.linked (identifierStem ((given? moduleName).getD defaultModuleName)))) := by
      cases rest <;> rfl
    rw [hplan] at h
    cases h
    exact ⟨_, rfl, rfl⟩
  | dynamicLoader moduleName version =>
    have hplan : (demand .name moduleName >>= fun n => demand .version version >>= fun v =>
        .ok (Plan.loader (input :: rest) (.loadable (identifierStem n) n v))) =
          Except.ok (.loader inputs packaging) := by
      rw [← h]
      cases rest <;> rfl
    obtain ⟨n, hn, hrest⟩ := bind_eq_ok_iff.1 hplan
    obtain ⟨v, _, hloader⟩ := bind_eq_ok_iff.1 hrest
    cases hloader
    refine ⟨n, ?_, rfl⟩
    unfold demand at hn
    show given? moduleName = some n
    cases hgiven : given? moduleName with
    | none =>
      rw [hgiven] at hn
      cases hn
    | some m =>
      rw [hgiven] at hn
      rw [Except.ok.inj hn]

/-- The entry point of a loader is an identifier exactly if its name can be made one. -/
theorem isIdentifier_entry (h : packaging.stem = identifierStem name) :
    IsIdentifier packaging.entry ↔ Usable ['-', '.'] name := by
  have hload : IsIdentifier "_static_load" := by decide
  have hspace : IsIdentifier "_autogen" := by decide
  cases packaging with
  | linked stem =>
    obtain rfl : stem = identifierStem name := h
    exact isIdentifier_identifierStem_append hload
  | loadable stem _ _ =>
    obtain rfl : stem = identifierStem name := h
    exact isIdentifier_identifierStem_append hspace

/-- **The names in a generated text.** -/
theorem generated_names (h : r.generate tree registry = .ok text) :
    ∃ modules : List Module,
      List.Forall₂ (fun q m => Module.load tree registry q = .ok m) r.inputs modules ∧
      (∀ m ∈ modules, IsIdentifier m.factoryName ↔ Usable ['-'] m.identifier) ∧
      (∀ m ∈ modules, ∀ m' ∈ modules, m.factoryName = m'.factoryName ↔
        SameButDashes m.identifier m'.identifier) ∧
      ((∃ m, modules = [m] ∧ r.mode = .factory ∧ text = (Factory.ofModule m).text ∧
          text = String.join ((Factory.ofModule m).lines.map (· ++ "\n")) ∧
          Factory.declaration m.factoryName m.role.kind.factoryBase m.className ∈
            (Factory.ofModule m).lines) ∨
        ∃ name packaging, r.mode.loaderName = some name ∧
          text = (Loader.ofModules modules r.roots packaging).text ∧
          text = String.join ((Loader.ofModules modules r.roots packaging).lines.map (· ++ "\n")) ∧
          (Loader.ofModules modules r.roots packaging).registrations.map Registration.factory =
            modules.map Module.factoryName ∧
          (∀ m ∈ modules, registrationLine m.role.kind.manager m.factoryName ∈
            (Loader.ofModules modules r.roots packaging).lines) ∧
          packaging.entryLine ∈ (Loader.ofModules modules r.roots packaging).lines ∧
          (IsIdentifier packaging.entry ↔ Usable ['-', '.'] name)) := by
  rcases plan_cases r with ⟨e, he⟩ | ⟨input, hmode, hinputs, hplan⟩ | ⟨packaging, _, _, hplan⟩
  · rw [generate_of_misshapen he] at h
    cases h
  · rw [generate_of_plan_factory hplan, map_eq_ok_iff] at h
    obtain ⟨m, hm, rfl⟩ := h
    have hload : Module.load tree registry input = .ok m := mapError_eq_ok_iff.1 hm
    refine ⟨[m], ?_, fun m _ => isIdentifier_factoryName, fun m _ m' _ => factoryName_eq_iff,
      Or.inl ⟨m, rfl, hmode, rfl, Factory.text_eq_join _,
        Factory.declaration_mem_lines (Factory.ofModule m)⟩⟩
    rw [hinputs]
    exact .cons hload .nil
  · rw [generate_of_plan_loader hplan, map_eq_ok_iff] at h
    obtain ⟨modules, hmodules, rfl⟩ := h
    obtain ⟨name, hname, hstem⟩ := exists_loaderName hplan
    refine ⟨modules, loadModules_eq_ok_iff.1 hmodules, fun m _ => isIdentifier_factoryName,
      fun m _ m' _ => factoryName_eq_iff, Or.inr ⟨name, packaging, hname, rfl,
        Loader.text_eq_join _, ?_, fun m hm => ?_,
        Loader.entryLine_mem_lines (Loader.ofModules modules r.roots packaging),
        isIdentifier_entry hstem⟩⟩
    · rw [Loader.ofModules, List.map_map]
      rfl
    · have hregistration : Registration.ofModule m ∈
          (Loader.ofModules modules r.roots packaging).registrations := List.mem_map_of_mem hm
      have hmanager : m.role.kind.manager = (Registration.ofModule m).manager := rfl
      have hfactory : m.factoryName = (Registration.ofModule m).factory := rfl
      rw [hmanager, hfactory]
      exact Loader.registrationLine_mem_lines hregistration

/-- Two plugins whose identifiers differ in a dash. -/
def twoVersions : FileTree :=
  ⟨[(["w"], .directory),
    (["w", "a.yml"],
      .file "plugin: \x7bname: uart-8.2, description: d, class: C, include: c.h\x7d".toUTF8),
    (["w", "b.yml"],
      .file "plugin: \x7bname: uart_8.2, description: d, class: C, include: c.h\x7d".toUTF8)],
    ["w"]⟩

/-- A loader over both registers one class twice, and neither the class nor what the loader is named
for is an identifier. -/
theorem generated_names_twoVersions :
    ∃ text first second packaging,
      (Request.mk (.staticLoader (some "2nd")) [⟨"a.yml"⟩, ⟨"b.yml"⟩] ⟨⟨""⟩, ⟨""⟩⟩).generate
        twoVersions Registry.builtin = .ok text ∧
      text = (Loader.ofModules [first, second] ⟨⟨""⟩, ⟨""⟩⟩ packaging).text ∧
      first.identifier ≠ second.identifier ∧ first.factoryName = second.factoryName ∧
      ¬ IsIdentifier first.factoryName ∧ ¬ IsIdentifier packaging.entry := by
  have hfirst : (Module.load twoVersions Registry.builtin ⟨"a.yml"⟩).map Module.identifier =
      .ok "uart-8.2" := by decide +kernel
  have hsecond : (Module.load twoVersions Registry.builtin ⟨"b.yml"⟩).map Module.identifier =
      .ok "uart_8.2" := by decide +kernel
  obtain ⟨first, hload₁, hid₁⟩ := map_eq_ok_iff.1 hfirst
  obtain ⟨second, hload₂, hid₂⟩ := map_eq_ok_iff.1 hsecond
  have hload : twoVersions.loadModules Registry.builtin [⟨"a.yml"⟩, ⟨"b.yml"⟩] =
      .ok [first, second] :=
    loadModules_eq_ok_iff.2 (.cons hload₁ (.cons hload₂ .nil))
  obtain ⟨text, htext⟩ : ∃ text, (Request.mk (.staticLoader (some "2nd")) [⟨"a.yml"⟩, ⟨"b.yml"⟩]
      ⟨⟨""⟩, ⟨""⟩⟩).generate twoVersions Registry.builtin = .ok text := by
    rw [generate_of_plan_loader rfl, hload]
    exact ⟨_, rfl⟩
  obtain ⟨modules, hmodules, hidentifier, hshared, hnames⟩ := generated_names htext
  have hsame := loadModules_eq_ok_iff.2 hmodules
  rw [hload, Except.ok.injEq] at hsame
  subst hsame
  rcases hnames with ⟨m, _, hmode, _⟩ | ⟨name, packaging, hname, hloader, _, _, _, _, hentry⟩
  · cases hmode
  · refine ⟨text, first, second, packaging, htext, hloader, ?_, ?_, ?_, ?_⟩
    · rw [hid₁, hid₂]
      decide
    · rw [hshared first (by simp) second (by simp), hid₁, hid₂]
      decide
    · rw [hidentifier first (by simp), hid₁]
      decide
    · obtain rfl : "2nd" = name := Option.some.inj hname
      rw [hentry]
      decide

end Foundry
