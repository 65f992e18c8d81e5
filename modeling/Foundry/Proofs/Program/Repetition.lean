import Foundry.Proofs.Descriptor.Alteration
import Foundry.Proofs.Program.Atomicity
import Foundry.Proofs.Request.Generation

/-!
# Running again

What a run reads is the configuration file, or the place where one would be found, and the
descriptors with all that they include. If the output file is none of these, then nothing that the
run has read looks different when the output file is there, so the same run makes the same text and
puts it where it stands already.

A result `Persists` when a computation that ended well ends so again. It is passed on from what is
read of a single file to what is made of it, one lemma for each function.

* `persists_resolveOn`, `persists_load`, `persists_generate`: documents, modules and artifacts.
* `persists_artifact`: the text that an invocation asks for.
* `run_again`: so a run that wrote a file changes nothing when it is repeated.
-/

namespace Foundry

open Command Parameter Yaml

/-! ### Results that persist -/

section Persists

variable {ε ε' α β γ : Type} {x y : Except ε α} {f g : α → Except ε β}

/-- If the first computation ends well, so does the second one, with the same result. -/
def Persists (x y : Except ε α) : Prop :=
  ∀ a, x = .ok a → y = .ok a

/-- Steps that persist make a computation that does. -/
theorem Persists.bind (h : Persists x y) (hfg : ∀ a, x = .ok a → Persists (f a) (g a)) :
    Persists (x >>= f) (y >>= g) := by
  intro b hb
  obtain ⟨a, ha, hb⟩ := bind_eq_ok_iff.1 hb
  exact bind_eq_ok_iff.2 ⟨a, h a ha, hfg a ha b hb⟩

theorem Persists.refl (x : Except ε α) : Persists x x :=
  fun _ => id

theorem Persists.mapError {k : ε → ε'} (h : Persists x y) :
    Persists (x.mapError k) (y.mapError k) := by
  intro a ha
  rw [mapError_eq_ok_iff] at ha ⊢
  exact h a ha

theorem Persists.map {k : α → β} (h : Persists x y) : Persists (x.map k) (y.map k) := by
  intro b hb
  cases x with
  | error e => cases hb
  | ok a =>
    rw [h a rfl]
    exact hb

theorem persists_mapM {k l : γ → Except ε α} {zs : List γ} (h : ∀ z ∈ zs, Persists (k z) (l z)) :
    Persists (zs.mapM k) (zs.mapM l) := by
  induction zs with
  | nil => exact Persists.refl _
  | cons z zs ih =>
    rw [List.forall_mem_cons] at h
    rw [List.mapM_cons, List.mapM_cons]
    exact h.1.bind fun _ _ => (ih h.2).bind fun _ _ => Persists.refl _

end Persists

/-! ### Reading beside a new file -/

namespace FileTree

variable {t u : FileTree} {here : Location} {p q : Path} {content : ByteArray} {registry : Registry}

/-- None of the paths that are read on the way from a path leads to a place. -/
def Avoids (t u : FileTree) (here : Location) (p : Path) : Prop :=
  ∀ q, Relation.ReflTransGen t.Forms p q → u.locate q ≠ .ok here

/-- A place is avoided from a path if the path does not lead there, and neither does any that is
formed at its file. -/
theorem avoids_iff : t.Avoids u here p ↔
    u.locate p ≠ .ok here ∧ ∀ q, t.Forms p q → t.Avoids u here q :=
  forall_forms_iff

section Beside

variable (hhere : t.isDirectory here = false)
include hhere

theorem persists_readDocument (hne : (t.put here (.file content)).locate p ≠ .ok here) :
    Persists (t.readDocument p) ((t.put here (.file content)).readDocument p) := by
  intro d hd
  obtain ⟨text, htext, hdocument⟩ := readDocument_eq_ok_iff_ofText?.1 hd
  exact readDocument_eq_ok_iff_ofText?.2 ⟨text, read_put_file hhere hne htext, hdocument⟩

/-- **Documents.** What is found without meeting the new file is found beside it. -/
theorem persists_resolveOn (chain : List Path) (h : t.Avoids (t.put here (.file content)) here p) :
    Persists (t.resolveOn chain p) ((t.put here (.file content)).resolveOn chain p) := by
  -- The files that are not on the chain get fewer in the tree without the new file.
  induction hn : t.unvisited chain using Nat.strong_induction_on generalizing chain p with
  | h n ih =>
    subst hn
    intro d hd
    obtain ⟨hoff, document, entries, fragments, hread, hentries, hfragments, hd⟩ :=
      resolveOn_eq_ok_iff.1 hd
    obtain ⟨hne, hnext⟩ := avoids_iff.1 h
    obtain ⟨there, hlocate, _⟩ := readDocument_eq_ok_iff.1 hread
    have hidentity : (t.put here (.file content)).identity p = t.identity p := by
      rw [identity_of_locate hlocate, identity_of_locate (locate_put_file hhere hlocate)]
    have hcalls : Persists
        (entries.mapM fun e => t.resolveOn (chain ++ [t.identity p]) (p.directory.join ⟨e⟩))
        (entries.mapM fun e => (t.put here (.file content)).resolveOn (chain ++ [t.identity p])
          (p.directory.join ⟨e⟩)) := by
      refine persists_mapM fun e he => ?_
      have hforms := (forms_iff_of_readDocument hread hentries).2 ⟨e, he, rfl⟩
      exact ih _ (unvisited_lt hread hoff) _ (hnext _ hforms) rfl
    rw [← mapM_eq_ok_iff] at hfragments
    rw [resolveOn_eq_ok_iff, hidentity]
    exact ⟨hoff, document, entries, fragments, persists_readDocument hhere hne document hread,
      hentries, mapM_eq_ok_iff.1 (hcalls fragments hfragments), hd⟩

/-- A module is loaded beside the new file as it was without it. -/
theorem persists_load (h : t.Avoids (t.put here (.file content)) here p) :
    Persists (Module.load t registry p) (Module.load (t.put here (.file content)) registry p) :=
  (persists_resolveOn hhere [] h).bind fun _ _ => Persists.refl _

theorem persists_description {asModule : Bool}
    (h : t.Avoids (t.put here (.file content)) here p) :
    Persists (t.description registry p asModule)
      ((t.put here (.file content)).description registry p asModule) := by
  unfold description
  split
  · exact (persists_load hhere h).map
  · exact (persists_resolveOn hhere [] h).map

/-- **Artifacts.** A request is met with the same text from files other than the new one. -/
theorem persists_generate {r : Request}
    (h : ∀ p ∈ r.inputs, t.Avoids (t.put here (.file content)) here p) :
    Persists (r.generate t registry) (r.generate (t.put here (.file content)) registry) := by
  intro text htext
  have hshape : ∀ e, ¬ r.Misshapen e := by
    intro e he
    rw [generate_of_misshapen he] at htext
    cases htext
  obtain ⟨make, hmake⟩ := exists_text hshape
  rw [hmake] at htext ⊢
  refine Persists.map (persists_mapM fun p hp => ?_) text htext
  exact (persists_load hhere (h p hp)).mapError

theorem persists_readSettings (hne : (t.put here (.file content)).locate p ≠ .ok here) :
    Persists (t.readSettings p) ((t.put here (.file content)).readSettings p) := by
  intro s hs
  unfold readSettings at hs ⊢
  cases hread : t.read p with
  | error fault =>
    rw [hread] at hs
    cases hs
  | ok text =>
    rw [hread] at hs
    rw [read_put_file hhere hne hread]
    exact hs

/-- **Settings.** The new file is neither read for them nor found to be read. -/
theorem persists_configuration {named : Option Path} {directory : Path}
    (hne : (t.put here (.file content)).locate
      (named.getD (directory.join ⟨configurationName⟩)) ≠ .ok here) :
    Persists (t.configuration named directory)
      ((t.put here (.file content)).configuration named directory) := by
  unfold configuration
  cases named with
  | some p => exact persists_readSettings hhere hne
  | none =>
    rw [Option.getD_none] at hne
    dsimp only
    rw [isFile_put_file hhere hne]
    -- Whether there is a configuration file does not depend on the new file either.
    split
    · exact persists_readSettings hhere hne
    · exact Persists.refl _

end Beside

end FileTree

/-! ### What a run reads -/

/-- The files that a task starts from. -/
def Task.files : Task → List Path
  | factory inputs => inputs
  | staticLoader inputs => inputs
  | dynamicLoader inputs => inputs
  | resolve file _ => [file]

/-- **Tasks.** A task that reads other files than the new one makes the same text. -/
theorem Task.persists_text {t : FileTree} {here : Location} {content : ByteArray}
    {settings : Settings} {task : Task} (hhere : t.isDirectory here = false)
    (h : ∀ p ∈ task.files, t.Avoids (t.put here (.file content)) here p) :
    Persists (task.text t settings) (task.text (t.put here (.file content)) settings) := by
  cases task with
  | factory inputs => exact (FileTree.persists_generate hhere h).mapError
  | staticLoader inputs => exact (FileTree.persists_generate hhere h).mapError
  | dynamicLoader inputs => exact (FileTree.persists_generate hhere h).mapError
  | resolve file asModule =>
    refine Persists.bind (Persists.mapError ?_) fun _ _ => Persists.refl _
    exact FileTree.persists_description hhere (h file (List.mem_singleton_self file))

namespace Program

variable {t : FileTree} {here : Location} {content : ByteArray} {i : Line.Invocation}
  {arguments : List String} {p : Path}

/-- The configuration file that is named, or the place where one would be found. -/
def configurationPath (i : Line.Invocation) (t : FileTree) : Path :=
  i.configuration.getD ((FileTree.pathOf t.workingDirectory).join ⟨FileTree.configurationName⟩)

/-- The paths that an invocation looks at: that of the configuration file, and those of the files
that are given, with all that they include. -/
def Reads (i : Line.Invocation) (t : FileTree) (q : Path) : Prop :=
  q = configurationPath i t ∨
    ∃ p ∈ i.command.task.files, Relation.ReflTransGen t.Forms p q

theorem persists_configure (hhere : t.isDirectory here = false)
    (hne : (t.put here (.file content)).locate (configurationPath i t) ≠ .ok here) :
    Persists (configure i t) (configure i (t.put here (.file content))) :=
  Persists.mapError (FileTree.persists_configuration hhere hne)

/-- **The text.** What an invocation makes without looking at the new file is what it makes beside
it. -/
theorem persists_artifact (hhere : t.isDirectory here = false)
    (h : ∀ q, Reads i t q → (t.put here (.file content)).locate q ≠ .ok here) :
    Persists (artifact i t) (artifact i (t.put here (.file content))) := by
  refine (persists_configure hhere (h _ (Or.inl rfl))).bind fun _ _ => ?_
  exact Task.persists_text hhere fun p hp q hq => h q (Or.inr ⟨p, hp, hq⟩)

/-! ### Running again -/

/-- When a text that was asked for is written to a file. -/
theorem perform_deliver_iff {question : FileTree → Except CommandError String} {o : Outcome} :
    (Action.ask question >>= Action.deliver (some p)).perform t = (.ok (), o) ↔
      ∃ text here, question t = .ok text ∧ t.target p = .ok here ∧
        o = ⟨t.put here (.file text.toUTF8), ""⟩ := by
  rw [Action.perform, Action.ask_bind_apply]
  cases question t with
  | error e => simp
  | ok text =>
    dsimp only
    rw [Action.deliver_some]
    dsimp only
    cases t.target p with
    | error fault => simp
    | ok here => simp [eq_comm]

/-- An invocation that ends well exits with zero and prints what it was asked for. -/
theorem run_eq_of_perform {o : Outcome} (hread : Line.read arguments = .ok i)
    (h : (invoke i).perform t = (.ok (), o)) : run t arguments = ⟨0, o.printed, none, o.tree⟩ := by
  unfold run
  rw [hread]
  dsimp only
  rw [h]

/-- **Running again.** If no path that a run looks at leads to its output file afterwards, then the
same run on what it has left behind succeeds with the same text, and leaves the same behind. -/
theorem run_again (hread : Line.read arguments = .ok i) (hout : i.command.output = some p)
    (hcode : (run t arguments).code = 0)
    (hreads : ∀ q, Reads i t q →
      (run t arguments).tree.locate q ≠ (run t arguments).tree.locate p) :
    run (run t arguments).tree arguments = run t arguments ∧
      ∃ text, artifact i t = .ok text ∧ artifact i (run t arguments).tree = .ok text ∧
        (run t arguments).tree.read p = .ok text := by
  obtain ⟨o, hperform⟩ : ∃ o, (invoke i).perform t = (.ok (), o) :=
    ⟨_, Prod.ext ((run_of_read hread).1.1 hcode) rfl⟩
  -- The first run has written its text, so its tree is the one with the new file.
  rw [run_eq_of_perform hread hperform] at hreads ⊢
  rw [invoke_eq, hout, perform_deliver_iff] at hperform
  obtain ⟨text, here, htext, htarget, rfl⟩ := hperform
  dsimp only at hreads ⊢
  rw [FileTree.locate_put_of_target htarget] at hreads
  -- The new file stands where it would be written again, and the text is made without it.
  have htext' :=
    persists_artifact (FileTree.not_isDirectory_of_target htarget) hreads text htext
  have hagain : (invoke i).perform (t.put here (.file text.toUTF8)) =
      (.ok (), ⟨t.put here (.file text.toUTF8), ""⟩) := by
    rw [invoke_eq, hout, perform_deliver_iff]
    refine ⟨text, here, htext', FileTree.target_put_file htarget, ?_⟩
    rw [FileTree.put_put]
  exact ⟨run_eq_of_perform hread hagain, text, htext, htext',
    (FileTree.replaces_of_target htarget).read⟩

/-- A file that includes a plugin, and nothing else. -/
def pluginByInclude : FileTree :=
  ⟨[(["w"], .directory),
    (["w", "a.yml"], .file "include: b.yml".toUTF8),
    (["w", "b.yml"],
      .file "plugin: \x7bname: p, description: d, class: C, include: c.h\x7d".toUTF8)],
    ["w"]⟩

/-- Nothing is read but the two files. -/
theorem forms_pluginByInclude {q : Path}
    (h : Relation.ReflTransGen pluginByInclude.Forms ⟨"a.yml"⟩ q) :
    q = ⟨"a.yml"⟩ ∨ q = ⟨"b.yml"⟩ := by
  have ha : pluginByInclude.readDocument ⟨"a.yml"⟩ =
      .ok (.map [(.str "include", .str "b.yml")]) := by
    decide +kernel
  have hb : pluginByInclude.readDocument ⟨"b.yml"⟩ =
      .ok (.map [(.str "plugin", .map [(.str "name", .str "p"), (.str "description", .str "d"),
        (.str "class", .str "C"), (.str "include", .str "c.h")])]) := by
    decide +kernel
  rcases Relation.ReflTransGen.cases_head h with rfl | ⟨r, hr, h⟩
  · exact Or.inl rfl
  · obtain ⟨e, he, rfl⟩ := (FileTree.forms_iff_of_readDocument ha rfl).1 hr
    rw [List.mem_singleton.1 he] at h
    rcases Relation.ReflTransGen.cases_head h with rfl | ⟨r, hr, _⟩
    · exact Or.inr rfl
    · obtain ⟨e, he, _⟩ := (FileTree.forms_iff_of_readDocument hb rfl).1 hr
      exact absurd he List.not_mem_nil

/-- The header of the plugin, written twice. -/
theorem run_again_pluginByInclude :
    (run pluginByInclude ["factory", "-o", "p.h", "a.yml"]).code = 0 ∧
      run (run pluginByInclude ["factory", "-o", "p.h", "a.yml"]).tree
          ["factory", "-o", "p.h", "a.yml"] =
        run pluginByInclude ["factory", "-o", "p.h", "a.yml"] := by
  have hread : Line.read ["factory", "-o", "p.h", "a.yml"] =
      .ok ⟨none, ⟨.factory [⟨"a.yml"⟩], .empty, some ⟨"p.h"⟩⟩⟩ := by
    decide +kernel
  have hcode : (run pluginByInclude ["factory", "-o", "p.h", "a.yml"]).code = 0 := by
    decide +kernel
  have helsewhere : ∀ q ∈ [(⟨"/w/facgen.yaml"⟩ : Path), ⟨"a.yml"⟩, ⟨"b.yml"⟩],
      (run pluginByInclude ["factory", "-o", "p.h", "a.yml"]).tree.locate q ≠
        (run pluginByInclude ["factory", "-o", "p.h", "a.yml"]).tree.locate ⟨"p.h"⟩ := by
    decide +kernel
  refine ⟨hcode, (run_again hread rfl hcode ?_).1⟩
  rintro q (rfl | ⟨p, hp, hq⟩)
  · exact helsewhere _ (by decide)
  · rw [List.mem_singleton.1 hp] at hq
    rcases forms_pluginByInclude hq with rfl | rfl
    · exact helsewhere _ (by decide)
    · exact helsewhere _ (by decide)

end Program

end Foundry
