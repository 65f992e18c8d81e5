import Foundry.Program
import Foundry.Proofs.FileTree.Writing

/-!
# All or nothing

A command looks into the file tree as often as it needs to, and only then opens its output file or
prints. Looking changes nothing (`ask_bind_apply`), so everything that can go wrong before the
output file is opened leaves the tree as it was, and an output file that cannot be opened is not
touched either.

* `ask_bind_ask`: questions in a row are one question.
* `allOrNothing_perform`: an action that asks for a text and delivers it does so wholly or does
  nothing.
* `run_allOrNothing`: so does every command, and every run of the program.
-/

namespace Foundry

open Command

/-! ### Steps -/

namespace Action

variable {α β γ : Type} {t : FileTree} {o : Outcome}

/-- Looking changes nothing, and a question without an answer is the last step. -/
theorem ask_bind_apply (question : FileTree → Except CommandError α) (next : α → Action β)
    (o : Outcome) :
    (ask question >>= next) o =
      match question o.tree with
      | .ok a => next a o
      | .error e => (.error e, o) := by
  show ExceptT.bindCont next (question o.tree) o = _
  cases question o.tree <;> rfl

theorem ask_bind_ask (first : FileTree → Except CommandError α)
    (second : α → FileTree → Except CommandError β) (next : β → Action γ) :
    (ask first >>= fun a => ask (second a) >>= next) =
      (ask fun t => first t >>= fun a => second a t) >>= next := by
  funext o
  rw [ask_bind_apply, ask_bind_apply]
  cases h : first o.tree with
  | error e => rfl
  | ok a =>
    dsimp only
    rw [ask_bind_apply]
    rfl

theorem deliver_none (text : String) (o : Outcome) :
    deliver none text o = (.ok (), { o with printed := o.printed ++ text }) := rfl

/-- A file is opened and filled, or not opened at all. -/
theorem deliver_some (p : Path) (text : String) (o : Outcome) :
    deliver (some p) text o =
      match o.tree.target p with
      | .ok here => (.ok (), { o with tree := o.tree.put here (.file text.toUTF8) })
      | .error fault => (.error (.unwritable p fault), o) := by
  show ExceptT.bindCont (fill · text) (openFile p o).1 (openFile p o).2 = _
  unfold openFile
  cases o.tree.target p with
  | error fault => rfl
  | ok here =>
    show fill here text _ = _
    rw [fill, FileTree.put_put]

end Action

/-! ### All or nothing -/

/-- What an action leaves behind that makes a text from a file tree and puts it into a file or
prints it: the text and nothing else if it succeeds, and nothing at all if it does not. -/
structure AllOrNothing (t : FileTree) (output : Option Path) (text : Except CommandError String)
    (succeeds : Prop) (o : Outcome) : Prop where
  succeeds_iff : succeeds ↔ ∃ s, text = .ok s ∧ ∀ p, output = some p → ∃ here, t.target p = .ok here
  failed : ¬ succeeds → o = ⟨t, ""⟩
  printed : succeeds → output = none → ∃ s, text = .ok s ∧ o = ⟨t, s⟩
  written : succeeds → ∀ p, output = some p →
    ∃ s, text = .ok s ∧ o.printed = "" ∧ t.Replaces p s o.tree

/-- **One question, one answer.** An action that asks for a text and delivers it is all or
nothing. -/
theorem allOrNothing_perform (t : FileTree) (output : Option Path)
    (question : FileTree → Except CommandError String) :
    AllOrNothing t output (question t)
      (((Action.ask question >>= Action.deliver output).perform t).1 = .ok ())
      ((Action.ask question >>= Action.deliver output).perform t).2 := by
  rw [Action.perform, Action.ask_bind_apply]
  cases hquestion : question t with
  | error e => exact ⟨by simp, fun _ => rfl, by simp, by simp⟩
  | ok s =>
    dsimp only
    cases output with
    | none =>
      rw [Action.deliver_none]
      refine ⟨by simp, by simp, fun _ _ => ⟨s, rfl, ?_⟩, by simp⟩
      show Outcome.mk t ("" ++ s) = _
      rw [String.empty_append]
    | some p =>
      rw [Action.deliver_some]
      cases htarget : t.target p with
      | error fault => exact ⟨by simp [htarget], fun _ => rfl, by simp, by simp⟩
      | ok here =>
        refine ⟨by simp [htarget], by simp, by simp, ?_⟩
        rintro _ _ ⟨⟩
        exact ⟨s, rfl, rfl, FileTree.replaces_of_target htarget⟩

/-! ### Runs -/

namespace Program

variable {t : FileTree} {arguments : List String} {i : Line.Invocation}

/-- The text that an invocation asks for, whether it is to be printed or not. -/
def artifact (i : Line.Invocation) (t : FileTree) : Except CommandError String := do
  let configured ← configure i t
  i.command.task.text t (i.command.flags.orElse configured)

/-- An invocation asks for its text and delivers it. -/
theorem invoke_eq (i : Line.Invocation) :
    invoke i = Action.ask (artifact i) >>= Action.deliver i.command.output :=
  Action.ask_bind_ask (configure i)
    (fun configured t => i.command.task.text t (i.command.flags.orElse configured)) _

/-- A run whose arguments can be read does what the invocation does. -/
theorem run_of_read (h : Line.read arguments = .ok i) :
    ((run t arguments).code = 0 ↔ ((invoke i).perform t).1 = .ok ()) ∧
      ⟨(run t arguments).tree, (run t arguments).printed⟩ = ((invoke i).perform t).2 := by
  unfold run
  rw [h]
  dsimp only
  split
  · rename_i o hperform
    rw [hperform]
    exact ⟨by simp, rfl⟩
  · rename_i e o hperform
    rw [hperform]
    exact ⟨by simp, rfl⟩

/-- **An invocation that is read** delivers its text, or changes nothing. -/
theorem allOrNothing_of_read (t : FileTree) (h : Line.read arguments = .ok i) :
    AllOrNothing t i.command.output (artifact i t) ((run t arguments).code = 0)
      ⟨(run t arguments).tree, (run t arguments).printed⟩ := by
  obtain ⟨hcode, houtcome⟩ := run_of_read (t := t) h
  rw [hcode, houtcome, invoke_eq]
  exact allOrNothing_perform t i.command.output (artifact i)

/-- A run that fails changes nothing, whether its arguments can be read or not. -/
theorem unchanged_of_failed (h : (run t arguments).code ≠ 0) :
    (run t arguments).tree = t ∧ (run t arguments).printed = "" := by
  cases hread : Line.read arguments with
  | ok i =>
    have houtcome := (allOrNothing_of_read t hread).failed h
    rw [Outcome.mk.injEq] at houtcome
    exact houtcome
  | error stop =>
    unfold run at h ⊢
    rw [hread] at h ⊢
    cases stop with
    | usage => exact ⟨rfl, rfl⟩
    | help => exact absurd rfl h
    | version => exact absurd rfl h

/-- **All or nothing.** Whatever the settings are and wherever they come from, a command that fails
changes no file and prints nothing. One that succeeds puts its text into its output file, changes
nothing else and prints nothing, or, if it has no output file, prints the text that it would have
put there and changes no file. -/
theorem run_allOrNothing (t : FileTree) :
    (∀ (configured : Settings) (c : Command),
      AllOrNothing t c.output (c.task.text t (c.flags.orElse configured))
        (((c.action configured).perform t).1 = .ok ()) ((c.action configured).perform t).2) ∧
    (∀ arguments i, Line.read arguments = .ok i →
      AllOrNothing t i.command.output (artifact i t) ((run t arguments).code = 0)
        ⟨(run t arguments).tree, (run t arguments).printed⟩) ∧
    (∀ arguments, (run t arguments).code ≠ 0 →
      (run t arguments).tree = t ∧ (run t arguments).printed = "") ∧
    ∀ arguments arguments' i p, Line.read arguments = .ok i → i.command.output = none →
      Line.read arguments' = .ok { i with command := { i.command with output := some p } } →
      (run t arguments).code = 0 → (run t arguments').code = 0 →
        (run t arguments').tree.read p = .ok (run t arguments).printed := by
  refine ⟨fun configured c => ?_, fun _ _ => allOrNothing_of_read t,
    fun _ => unchanged_of_failed, ?_⟩
  · exact allOrNothing_perform t c.output fun t => c.task.text t (c.flags.orElse configured)
  · intro arguments arguments' i p hread hnone hread' hcode hcode'
    obtain ⟨s, hs, hprinted⟩ := (allOrNothing_of_read t hread).printed hcode hnone
    obtain ⟨s', hs', _, hwritten⟩ := (allOrNothing_of_read t hread').written hcode' p rfl
    -- The output is no part of what the text is made from.
    have hsame : artifact { i with command := { i.command with output := some p } } t =
        artifact i t := rfl
    rw [hsame, hs, Except.ok.injEq] at hs'
    rw [Outcome.mk.injEq] at hprinted
    rw [hprinted.2, hs']
    exact hwritten.read

/-- A plugin and nothing else. -/
def plugin : FileTree :=
  ⟨[(["w"], .directory),
    (["w", "a.yml"],
      .file "plugin: \x7bname: p, description: d, class: C, include: c.h\x7d".toUTF8)],
    ["w"]⟩

/-- The header of the plugin is written as it is printed, and a run without a descriptor leaves the
plugin alone although it was to be replaced. -/
theorem run_allOrNothing_plugin :
    (run plugin ["factory", "a.yml"]).code = 0 ∧ (run plugin ["factory", "a.yml"]).tree = plugin ∧
      (run plugin ["factory", "-o", "p.h", "a.yml"]).tree.read ⟨"p.h"⟩ =
        .ok (run plugin ["factory", "a.yml"]).printed ∧
      (run plugin ["factory", "-o", "a.yml", "b.yml"]).code = 1 ∧
      (run plugin ["factory", "-o", "a.yml", "b.yml"]).tree = plugin := by
  obtain ⟨_, hread, hfailed, hsame⟩ := run_allOrNothing plugin
  have hprints : Line.read ["factory", "a.yml"] =
      .ok ⟨none, ⟨.factory [⟨"a.yml"⟩], .empty, none⟩⟩ := by decide +kernel
  have hwrites : Line.read ["factory", "-o", "p.h", "a.yml"] =
      .ok ⟨none, ⟨.factory [⟨"a.yml"⟩], .empty, some ⟨"p.h"⟩⟩⟩ := by decide +kernel
  have hcode : (run plugin ["factory", "a.yml"]).code = 0 := by decide +kernel
  have hcode' : (run plugin ["factory", "-o", "p.h", "a.yml"]).code = 0 := by decide +kernel
  have hfails : (run plugin ["factory", "-o", "a.yml", "b.yml"]).code = 1 := by decide +kernel
  refine ⟨hcode, ?_, hsame _ _ _ _ hprints rfl hwrites hcode hcode', hfails, ?_⟩
  · obtain ⟨s, _, houtcome⟩ := (hread _ _ hprints).printed hcode rfl
    exact (Outcome.mk.inj houtcome).1
  · refine (hfailed _ ?_).1
    rw [hfails]
    decide

end Program

end Foundry
