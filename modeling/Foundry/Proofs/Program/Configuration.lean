import Foundry.Proofs.Program.Atomicity

/-!
# Configurations as defaults

Each setting is given by an option, and every command declares some of the options. The text of a
command is made from the settings that it declares and from no others (`text_only`), so a
configuration comes in only where the flags leave one of these open. A setting counts as given
whatever it says: an empty module name is not replaced.

* `text_congr`: settings that agree on what a task takes make the same text.
* `run_of_configure`: a run of the program as a run of its command.
* `configuration_fills_open_flags`: the steps of a command under a configuration are those of the
  command with its open flags filled in, under no configuration at all.
-/

namespace Foundry

open Command

/-! ### Settings one by one -/

/-- The option that gives a setting. -/
def SettingKey.flag : SettingKey → Line.Flag
  | sourceRoot => .sourceRoot
  | buildRoot => .buildRoot
  | moduleName => .moduleName
  | moduleVersion => .moduleVersion
  | format => .format

namespace Settings

variable {s s' : Settings}

/-- What a setting is given as, or nothing if it is left open. -/
def value? (s : Settings) : SettingKey → Option String
  | .sourceRoot => s.sourceRoot.map Path.text
  | .buildRoot => s.buildRoot.map Path.text
  | .moduleName => s.moduleName
  | .moduleVersion => s.moduleVersion
  | .format => s.format.map Format.name

/-- Some of the settings, with the others left open. -/
def only (keep : SettingKey → Bool) (s : Settings) : Settings where
  sourceRoot := if keep .sourceRoot then s.sourceRoot else none
  buildRoot := if keep .buildRoot then s.buildRoot else none
  moduleName := if keep .moduleName then s.moduleName else none
  moduleVersion := if keep .moduleVersion then s.moduleVersion else none
  format := if keep .format then s.format else none

/-- Settings that are given as the same are the same. -/
theorem ext_value? (h : ∀ k, s.value? k = s'.value? k) : s = s' := by
  have hpath : Function.Injective Path.text := by
    rintro ⟨p⟩ ⟨q⟩ rfl
    rfl
  have hformat : Function.Injective Format.name := by
    intro f g hname
    rw [← Option.some_inj, ← Format.ofName?_name, hname, Format.ofName?_name]
  rw [Settings.mk.injEq]
  exact ⟨Option.map_injective hpath (h .sourceRoot), Option.map_injective hpath (h .buildRoot),
    h .moduleName, h .moduleVersion, Option.map_injective hformat (h .format)⟩

@[simp]
theorem value?_only (keep : SettingKey → Bool) (s : Settings) (k : SettingKey) :
    (s.only keep).value? k = if keep k then s.value? k else none := by
  cases k <;> simp only [value?, only] <;> split <;> rfl

@[simp]
theorem value?_orElse (s t : Settings) (k : SettingKey) :
    (s.orElse t).value? k = (s.value? k).or (t.value? k) := by
  cases k <;> simp [value?, orElse, Option.map_or]

end Settings

/-! ### What a task takes -/

namespace Task

variable {t : FileTree} {task : Task} {s s' : Settings}

/-- The command that a task belongs to. -/
def verb : Task → Line.Verb
  | factory _ => .factory
  | staticLoader _ => .staticLoader
  | dynamicLoader _ => .dynamicLoader
  | resolve .. => .resolve

/-- Whether the command of a task declares the option of a setting. -/
def takes (task : Task) (k : SettingKey) : Bool :=
  (Line.Flag.declared (some task.verb)).contains k.flag

/-- What a task does not take is not looked at. -/
theorem text_only (t : FileTree) (s : Settings) (task : Task) :
    task.text t (s.only task.takes) = task.text t s := by
  -- Once the task is known, so are the settings that are kept, and no others are mentioned.
  cases task <;> rfl

/-- A task depends on the settings that it takes and on no others. -/
theorem text_congr (h : ∀ k, task.takes k → s.value? k = s'.value? k) :
    task.text t s = task.text t s' := by
  have honly : s.only task.takes = s'.only task.takes := by
    refine Settings.ext_value? fun k => ?_
    rw [Settings.value?_only, Settings.value?_only]
    split
    · next htakes => exact h k htakes
    · rfl
  rw [← text_only, honly, text_only]

end Task

/-! ### Filled flags -/

namespace Command

variable {c : Command} {configured configured' : Settings}

/-- A command whose open flags are filled in from a configuration, as far as it declares them. -/
def filled (configured : Settings) (c : Command) : Command :=
  { c with flags := c.flags.orElse (configured.only c.task.takes) }

theorem value?_filled_of_given {k : SettingKey} {v : String} (h : c.flags.value? k = some v) :
    (c.filled configured).flags.value? k = some v := by
  simp [filled, h]

/-- A flag that is open is filled from the configuration, if the task takes it. -/
theorem value?_filled_of_open {k : SettingKey} (h : c.flags.value? k = none) :
    (c.filled configured).flags.value? k =
      if c.task.takes k then configured.value? k else none := by
  simp [filled, h]

/-- Configurations that agree on what the flags leave open fill in the same. -/
theorem filled_congr (h : ∀ k, c.task.takes k → c.flags.value? k = none →
    configured.value? k = configured'.value? k) : c.filled configured = c.filled configured' := by
  have hflags : (c.filled configured).flags = (c.filled configured').flags := by
    refine Settings.ext_value? fun k => ?_
    cases hgiven : c.flags.value? k with
    | some v => rw [value?_filled_of_given hgiven, value?_filled_of_given hgiven]
    | none =>
      rw [value?_filled_of_open hgiven, value?_filled_of_open hgiven]
      split
      · next htakes => exact h k htakes hgiven
      · rfl
  rw [Command.mk.injEq]
  exact ⟨rfl, hflags, rfl⟩

/-- A task makes the same text from filled flags as from its flags and the configuration. -/
theorem text_filled (t : FileTree) (configured : Settings) (c : Command) :
    c.task.text t (c.filled configured).flags = c.task.text t (c.flags.orElse configured) := by
  refine Task.text_congr fun k htakes => ?_
  rw [filled, Settings.value?_orElse, Settings.value?_only, if_pos htakes, Settings.value?_orElse]

/-- **Filled flags need no configuration.** The action is the same. -/
theorem action_filled (configured : Settings) (c : Command) :
    (c.filled configured).action .empty = c.action configured := by
  have htext : (fun t => c.task.text t (c.filled configured).flags) =
      fun t => c.task.text t (c.flags.orElse configured) :=
    funext fun t => text_filled t configured c
  unfold action
  rw [Settings.orElse_empty, ← htext]
  rfl

theorem run_filled (t : FileTree) (configured : Settings) (c : Command) :
    (c.filled configured).run t .empty = c.run t configured := by
  rw [run, run, action_filled]

end Command

/-! ### Runs -/

namespace Program

variable {t : FileTree} {arguments : List String} {i : Line.Invocation} {configured : Settings}

theorem invoke_perform (h : configure i t = .ok configured) :
    (invoke i).perform t = (i.command.action configured).perform t := by
  unfold invoke Action.perform
  rw [Action.ask_bind_apply, h]

/-- **One command.** A run of the program is a run of the command that it reads, under the settings
that it reads. One that fails leaves nothing behind but the line that tells why. -/
theorem run_of_configure (hread : Line.read arguments = .ok i)
    (h : configure i t = .ok configured) : run t arguments =
      match i.command.run t configured with
      | .ok o => ⟨0, o.printed, none, o.tree⟩
      | .error e => ⟨1, "", some e.report, t⟩ := by
  have hperform := allOrNothing_perform t i.command.output fun t =>
    i.command.task.text t (i.command.flags.orElse configured)
  change AllOrNothing t _ _ (((i.command.action configured).perform t).1 = .ok ())
    ((i.command.action configured).perform t).2 at hperform
  unfold run Command.run
  rw [hread]
  dsimp only
  rw [invoke_perform h]
  cases haction : (i.command.action configured).perform t with
  | mk result o =>
    rw [haction] at hperform
    cases result with
    | ok _ => rfl
    | error e =>
      have ho : o = ⟨t, ""⟩ := hperform.failed nofun
      rw [ho]

end Program

open Program

/-- **Defaults.** Under a configuration a command takes the same steps as under none, once its open
flags are filled in from the configuration. So it makes the same text or fails for the same reason,
and leaves the same file tree. A flag that is given is kept whatever it says, a flag that is open is
filled in exactly if the command declares it, and nothing else of the configuration matters; to a
factory header none of it does. Two runs, one with a configuration and the other with its settings
as options and an empty configuration, end the same way. -/
theorem configuration_fills_open_flags (configured : Settings) (c : Command) :
    c.action configured = (c.filled configured).action .empty ∧
    (∀ k v, c.flags.value? k = some v → (c.filled configured).flags.value? k = some v) ∧
    (∀ k, c.flags.value? k = none → (c.filled configured).flags.value? k =
      if c.task.takes k then configured.value? k else none) ∧
    (∀ configured', (∀ k, c.task.takes k → c.flags.value? k = none →
      configured.value? k = configured'.value? k) → c.action configured = c.action configured') ∧
    (∀ inputs configured', c.task = .factory inputs →
      c.action configured = c.action configured') ∧
    ∀ t arguments arguments' i i', Line.read arguments = .ok i → i.command = c →
      configure i t = .ok configured → Line.read arguments' = .ok i' →
      i'.command = c.filled configured → configure i' t = .ok .empty →
      run t arguments = run t arguments' := by
  have hagree (configured' : Settings) (h : ∀ k, c.task.takes k → c.flags.value? k = none →
      configured.value? k = configured'.value? k) : c.action configured = c.action configured' := by
    rw [← action_filled, filled_congr h, action_filled]
  refine ⟨(action_filled configured c).symm, fun k v => value?_filled_of_given,
    fun k => value?_filled_of_open, hagree, ?_, ?_⟩
  · -- A factory header has no option for any setting, so all configurations agree.
    intro inputs configured' htask
    refine hagree configured' fun k htakes => ?_
    rw [htask] at htakes
    cases k <;> cases htakes
  · intro t arguments arguments' i i' hread hcommand hconfigure hread' hcommand' hconfigure'
    rw [run_of_configure hread hconfigure, run_of_configure hread' hconfigure', hcommand, hcommand',
      run_filled]

/-- A plugin with a configuration beside it, and one that says nothing. -/
def configuredPlugin : FileTree :=
  ⟨[(["w"], .directory),
    (["w", "a.yml"],
      .file "plugin: \x7bname: p, description: d, class: C, include: c.h\x7d".toUTF8),
    (["w", "facgen.yaml"], .file "source_dir: /w\nmodule_name: m\nmodule_version: 2".toUTF8),
    (["w", "none.yaml"], .file .empty)],
    ["w"]⟩

/-- The empty name of a static loader is kept, its source root is filled in, and the version, which
a static loader does not have, is left out. -/
theorem configuration_fills_open_flags_configuredPlugin :
    run configuredPlugin ["static-loader", "-m", "", "a.yml"] =
      run configuredPlugin
        ["static-loader", "-m", "", "-s", "/w", "--config", "none.yaml", "a.yml"] := by
  have hread : Line.read ["static-loader", "-m", "", "a.yml"] =
      .ok ⟨none, ⟨.staticLoader [⟨"a.yml"⟩], ⟨none, none, some "", none, none⟩, none⟩⟩ := by
    decide +kernel
  have hread' : Line.read
      ["static-loader", "-m", "", "-s", "/w", "--config", "none.yaml", "a.yml"] =
        .ok ⟨some ⟨"none.yaml"⟩,
          ⟨.staticLoader [⟨"a.yml"⟩], ⟨some ⟨"/w"⟩, none, some "", none, none⟩, none⟩⟩ := by
    decide +kernel
  obtain ⟨_, _, _, _, _, hruns⟩ := configuration_fills_open_flags
    ⟨some ⟨"/w"⟩, none, some "m", some "2", none⟩
    ⟨.staticLoader [⟨"a.yml"⟩], ⟨none, none, some "", none, none⟩, none⟩
  exact hruns _ _ _ _ _ hread rfl (by decide +kernel) hread' (by decide +kernel)
    (by decide +kernel)

end Foundry
