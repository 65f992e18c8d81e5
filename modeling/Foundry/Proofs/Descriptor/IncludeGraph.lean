import Foundry.Descriptor.Resolve
import Foundry.Proofs.FileTree.Location
import Foundry.Proofs.Yaml.Merge
import Foundry.Proofs.Yaml.Reading
import Mathlib.Logic.Relation

/-!
# The include graph

The nodes of the graph are locations. A file there contributes a `Source`: its own content, and the
locations to which the entries of its directive lead when they are read from its directory. How a
file was reached, by which path and from which other file, does not enter.

A value of the graph is what `Evaluates` computes from the sources on it, children first. The
`Reference` is the document that a file stands for, by this and no chain of files.

* `wellKeyed_of_source?`: what is read from a file repeats no key.
* `Evaluates.unique`: there is at most one value.
* `exists_evaluates_iff`: there is one exactly where the graph is `Sound` and `Acyclic`: every file
  that can be reached contributes a source, and none can be reached from itself.
-/

namespace Foundry

open Yaml

namespace FileTree

/-! ### Sources -/

/-- The document of the file at a location. -/
def documentAt? (t : FileTree) (here : Location) : Option Node :=
  match t.found? here with
  | some (.file content) => (String.fromUTF8? content).bind Node.ofText?
  | _ => none

/-- What a file contributes. -/
structure Source where
  targets : List Location
  own : Node

/-- What the file at a location contributes, if its directive is well formed and its entries lead
somewhere. -/
def source? (t : FileTree) (here : Location) : Option Source := do
  let document ← t.documentAt? here
  let entries ← (includedPaths document).toOption
  let targets ← (entries.mapM fun e => (t.within here.dropLast).locate ⟨e⟩).toOption
  pure ⟨targets, withoutDirective document⟩

variable {t : FileTree} {here there : Location} {s : Source}

/-- A file contributes a source exactly if it can be read, its directive is well formed, and every
entry leads somewhere. -/
theorem source?_eq_some_iff :
    t.source? here = some s ↔
      ∃ document entries, t.documentAt? here = some document ∧
        includedPaths document = .ok entries ∧
        List.Forall₂ (fun e there => (t.within here.dropLast).locate ⟨e⟩ = .ok there) entries
          s.targets ∧
        s.own = withoutDirective document := by
  simp only [source?, Option.bind_eq_bind, Option.bind_eq_some_iff, toOption_eq_some_iff,
    mapM_eq_ok_iff]
  constructor
  · rintro ⟨document, hdocument, entries, hentries, targets, htargets, hs⟩
    rw [← Option.some.inj hs]
    exact ⟨document, entries, hdocument, hentries, htargets, rfl⟩
  · rintro ⟨document, entries, hdocument, hentries, htargets, hown⟩
    refine ⟨document, hdocument, entries, hentries, s.targets, htargets, ?_⟩
    rw [← hown]
    rfl

/-- A document is read from a file whose bytes are a text and whose text is a value. -/
theorem documentAt?_eq_some_iff {document : Node} :
    t.documentAt? here = some document ↔
      ∃ content text, t.found? here = some (.file content) ∧
        String.fromUTF8? content = some text ∧ Node.ofText? text = some document := by
  unfold documentAt?
  split
  · rename_i content hfile
    rw [Option.bind_eq_some_iff]
    constructor
    · rintro ⟨text, htext, hdocument⟩
      exact ⟨content, text, hfile, htext, hdocument⟩
    · rintro ⟨content', text, hfile', htext, hdocument⟩
      rw [hfile, Option.some.injEq, Entry.file.injEq] at hfile'
      rw [hfile']
      exact ⟨text, htext, hdocument⟩
  · rename_i hnone
    constructor
    · intro h
      cases h
    · rintro ⟨content, _, hfile, _⟩
      exact absurd hfile (hnone content)

theorem documentAt?_of_text {text : String} (hfile : t.found? here = some (.file text.toUTF8)) :
    t.documentAt? here = Node.ofText? text := by
  rw [documentAt?, hfile]
  dsimp only
  rw [fromUTF8?_toUTF8, Option.bind_some]

theorem wellKeyed_withoutDirective {document : Node} (h : document.WellKeyed) :
    (withoutDirective document).WellKeyed := by
  cases h with
  | @map es distinct keys values =>
    rw [withoutDirective]
    refine .map ?_ (fun e he => keys e (List.mem_of_mem_filter he)) fun e he =>
      values e (List.mem_of_mem_filter he)
    rw [Entries.keysDistinct_iff] at distinct ⊢
    exact distinct.filter _
  | null => exact Node.wellKeyed_empty
  | bool b => exact .bool b
  | int i => exact .int i
  | float x => exact .float x
  | str s => exact .str s
  | seq each => exact .seq each
  | tagged tag node => exact .tagged tag node

theorem wellKeyed_of_documentAt? {document : Node} (h : t.documentAt? here = some document) :
    document.WellKeyed := by
  obtain ⟨_, _, _, _, htext⟩ := documentAt?_eq_some_iff.1 h
  exact Node.wellKeyed_of_ofText? htext

theorem wellKeyed_of_source? (hs : t.source? here = some s) : s.own.WellKeyed := by
  obtain ⟨document, _, hdocument, _, _, hown⟩ := source?_eq_some_iff.1 hs
  rw [hown]
  exact wellKeyed_withoutDirective (wellKeyed_of_documentAt? hdocument)

/-! ### Edges -/

/-- An entry of the file here leads there. -/
def Includes (t : FileTree) (here there : Location) : Prop :=
  ∃ s, t.source? here = some s ∧ there ∈ s.targets

/-- A chain of entries leads there. -/
def Reaches (t : FileTree) : Location → Location → Prop :=
  Relation.ReflTransGen t.Includes

/-- Every file that can be reached contributes a source. -/
def Sound (t : FileTree) (here : Location) : Prop :=
  ∀ there, t.Reaches here there → ∃ s, t.source? there = some s

/-- No file that can be reached can be reached from itself. -/
def Acyclic (t : FileTree) (here : Location) : Prop :=
  ∀ there, t.Reaches here there → ¬ Relation.TransGen t.Includes there there

/-- The edges from a file are its entries. -/
theorem includes_iff (hs : t.source? here = some s) :
    t.Includes here there ↔ there ∈ s.targets := by
  constructor
  · rintro ⟨s', hs', hmem⟩
    rw [hs, Option.some.injEq] at hs'
    rw [hs']
    exact hmem
  · intro hmem
    exact ⟨s, hs, hmem⟩

theorem Sound.of_reaches (h : t.Sound here) (hreach : t.Reaches here there) : t.Sound there :=
  fun _ hnext => h _ (hreach.trans hnext)

theorem Acyclic.of_reaches (h : t.Acyclic here) (hreach : t.Reaches here there) :
    t.Acyclic there :=
  fun _ hnext => h _ (hreach.trans hnext)

/-! ### Values -/

variable {α : Type} {f : Node → List α → α} {a b : α}

/-- The value of a file: `f` of its own content and of the values of the files it includes. -/
inductive Evaluates (t : FileTree) (f : Node → List α → α) : Location → α → Prop
  | of_source {here : Location} {s : Source} {values : List α} (hs : t.source? here = some s)
    (hlength : s.targets.length = values.length)
    (hvalues : ∀ v ∈ s.targets.zip values, Evaluates t f v.1 v.2) :
    Evaluates t f here (f s.own values)

/-- A file has a value exactly if each file that it includes has one, and its value is made of
these. -/
theorem evaluates_iff :
    t.Evaluates f here a ↔ ∃ s values, t.source? here = some s ∧
      List.Forall₂ (t.Evaluates f) s.targets values ∧ a = f s.own values := by
  constructor
  · rintro ⟨hs, hlength, hvalues⟩
    exact ⟨_, _, hs, List.forall₂_iff_zip.2 ⟨hlength, hvalues _⟩, rfl⟩
  · rintro ⟨s, values, hs, hvalues, rfl⟩
    exact .of_source hs hvalues.length_eq fun v hv => List.forall₂_zip hvalues hv

/-- Induction on the graph below a file that has a value. -/
@[elab_as_elim]
theorem Evaluates.induct {motive : ∀ here a, t.Evaluates f here a → Prop}
    (of_source : ∀ here s values (hs : t.source? here = some s)
      (hvalues : List.Forall₂ (t.Evaluates f) s.targets values),
      List.Forall₂ (fun there v => ∃ h, motive there v h) s.targets values →
      motive here (f s.own values) (evaluates_iff.2 ⟨s, values, hs, hvalues, rfl⟩))
    (h : t.Evaluates f here a) : motive here a h := by
  induction h with
  | of_source hs hlength hvalues ih =>
    refine of_source _ _ _ hs (List.forall₂_iff_zip.2 ⟨hlength, hvalues _⟩) ?_
    exact List.forall₂_iff_zip.2 ⟨hlength, fun hv => ⟨hvalues _ hv, ih _ hv⟩⟩

/-- **One value.** -/
theorem Evaluates.unique (ha : t.Evaluates f here a) (hb : t.Evaluates f here b) : a = b := by
  induction ha using Evaluates.induct generalizing b with
  | of_source here s values hs _ ih =>
    obtain ⟨s', values', hs', hvalues', rfl⟩ := evaluates_iff.1 hb
    rw [hs, Option.some.injEq] at hs'
    subst hs'
    have hsame : List.Forall₂ (fun there v => ∀ w, t.Evaluates f there w → v = w) s.targets
        values := ih.imp fun _ _ ⟨_, hv⟩ w hw => hv hw
    rw [eq_of_forall₂ hsame hvalues']

/-! ### Where there is a value -/

/-- A file with a value has no endless chain of entries. -/
theorem Evaluates.acc (h : t.Evaluates f here a) : Acc (fun y x => t.Includes x y) here := by
  induction h using Evaluates.induct with
  | of_source here s values hs _ ih =>
    refine Acc.intro here fun there hthere => ?_
    rw [includes_iff hs] at hthere
    obtain ⟨_, _, _, hacc⟩ := exists_of_forall₂ ih hthere
    exact hacc

theorem Evaluates.exists_of_includes (h : t.Evaluates f here a) (hedge : t.Includes here there) :
    ∃ b, t.Evaluates f there b := by
  obtain ⟨s, values, hs, hvalues, _⟩ := evaluates_iff.1 h
  rw [includes_iff hs] at hedge
  obtain ⟨b, _, hb⟩ := exists_of_forall₂ hvalues hedge
  exact ⟨b, hb⟩

/-- Every file that can be reached from one with a value has one. -/
theorem Evaluates.exists_of_reaches (h : t.Evaluates f here a) (hreach : t.Reaches here there) :
    ∃ b, t.Evaluates f there b := by
  induction hreach with
  | refl => exact ⟨a, h⟩
  | tail _ hedge ih =>
    obtain ⟨b, hb⟩ := ih
    exact hb.exists_of_includes hedge

/-- Where there is a value, every file that can be reached contributes a source. -/
theorem Evaluates.sound (h : t.Evaluates f here a) : t.Sound here := by
  intro there hreach
  obtain ⟨b, hb⟩ := h.exists_of_reaches hreach
  obtain ⟨s, _, hs, _⟩ := evaluates_iff.1 hb
  exact ⟨s, hs⟩

/-- A file with a value cannot be reached from itself. -/
theorem Evaluates.not_transGen (h : t.Evaluates f here a) :
    ¬ Relation.TransGen t.Includes here here := by
  intro hcycle
  -- Going around a cycle would never end.
  have hacc := h.acc.transGen
  induction hacc with
  | intro x _ ih => exact ih x (Relation.transGen_swap.1 hcycle) h hcycle

/-- Where there is a value, there is no cycle further down. -/
theorem Evaluates.acyclic (h : t.Evaluates f here a) : t.Acyclic here := by
  intro there hreach
  obtain ⟨b, hb⟩ := h.exists_of_reaches hreach
  exact hb.not_transGen

open Classical in
/-- The number of files that a file leads to. -/
noncomputable def below (t : FileTree) (here : Location) : Nat :=
  t.entries.countP fun e => decide (Relation.TransGen t.Includes here e.1)

open Classical in
/-- Files further down lead to fewer files. -/
theorem below_lt (hedge : t.Includes here there) (hfile : ∃ s, t.source? there = some s)
    (hacyclic : ¬ Relation.TransGen t.Includes there there) : t.below there < t.below here := by
  obtain ⟨s, hs⟩ := hfile
  obtain ⟨document, _, hdocument, _⟩ := source?_eq_some_iff.1 hs
  obtain ⟨_, _, hfile, _⟩ := documentAt?_eq_some_iff.1 hdocument
  -- Whatever is reached from there is reached from here, and there itself only from here.
  refine countP_lt_countP (fun e he => ?_) (mem_of_found?_file hfile) ?_ ?_
  · rw [decide_eq_true_iff] at he ⊢
    exact Relation.TransGen.head hedge he
  · rw [decide_eq_true_iff]
    exact Relation.TransGen.single hedge
  · rw [decide_eq_false_iff_not]
    exact hacyclic

/-- On a sound and acyclic graph every file has a value. -/
theorem exists_evaluates (hsound : t.Sound here) (hacyclic : t.Acyclic here) :
    ∃ a, t.Evaluates f here a := by
  -- Every edge leaves fewer files below, so the induction is on their number.
  induction hn : t.below here using Nat.strong_induction_on generalizing here with
  | h n ih =>
    subst hn
    obtain ⟨s, hs⟩ := hsound here Relation.ReflTransGen.refl
    have hvalues : ∀ there ∈ s.targets, ∃ b, t.Evaluates f there b := by
      intro there hthere
      have hedge : t.Includes here there := (includes_iff hs).2 hthere
      have hreach : t.Reaches here there := Relation.ReflTransGen.single hedge
      exact ih _ (below_lt hedge (hsound there hreach) (hacyclic there hreach))
        (hsound.of_reaches hreach) (hacyclic.of_reaches hreach) rfl
    obtain ⟨values, hvalues⟩ := exists_forall₂ hvalues
    exact ⟨f s.own values, evaluates_iff.2 ⟨s, values, hs, hvalues, rfl⟩⟩

/-- **Where there is a value.** -/
theorem exists_evaluates_iff : (∃ a, t.Evaluates f here a) ↔ t.Sound here ∧ t.Acyclic here := by
  constructor
  · rintro ⟨a, h⟩
    exact ⟨h.sound, h.acyclic⟩
  · rintro ⟨hsound, hacyclic⟩
    exact exists_evaluates hsound hacyclic

/-! ### The reference -/

/-- Own content over that of fragments, later ones over earlier ones. -/
def overFragments (own : Node) (fragments : List Node) : Node :=
  (fragments.foldl Node.merge (.map [])).merge own

/-- The document that the file at a location stands for. -/
def Reference (t : FileTree) : Location → Node → Prop :=
  t.Evaluates overFragments

/-- What holds of the empty mapping and is kept by merging holds of own content over fragments, if
it holds of both. -/
theorem overFragments_induction {P : Node → Prop} {own : Node} {fragments : List Node}
    (empty : P (.map [])) (merge : ∀ a b, P a → P b → P (a.merge b)) (hown : P own)
    (hfragments : ∀ n ∈ fragments, P n) : P (overFragments own fragments) := by
  refine merge _ own ?_ hown
  refine List.foldlRecOn fragments Node.merge empty fun a ha b hb => ?_
  exact merge a b ha (hfragments b hb)

end FileTree

end Foundry
