import Foundry.Descriptor.Include
import Foundry.Yaml.Node.Reader

/-!
# Resolving includes

`resolve` reads a descriptor and merges its fragments beneath it: first the fragments in the order
of the directive, each resolved in turn, then the document itself without its directive. Paths in a
directive start from the directory of the file that holds it.

The chain of files that are being resolved is kept by canonical path; a file that is met again on
its own chain makes a cycle. A fragment that two files include is no cycle and is resolved twice.
Since a file joins the chain before its fragments are resolved, the files that are not on it get
fewer, and resolving ends.

* `unvisited_lt`: a file that was read and was not on the chain is one less to visit.
-/

namespace Foundry

open Yaml

namespace FileTree

/-- What tells a file apart: its canonical path, or the normalized path if that leads nowhere. -/
def identity (t : FileTree) (p : Path) : Path :=
  (t.canonical? p).getD p.normalize

/-- Whether a path is on a chain. -/
def isOn (chain : List Path) (p : Path) : Bool :=
  chain.any (·.same p)

/-- The document of a file. -/
def readDocument (t : FileTree) (p : Path) : Except DescriptorError Node :=
  match t.read p with
  | .error fault => .error (.unreadable p fault)
  | .ok text =>
    match Node.ofText? text with
    | some document => .ok document
    | none => .error (.malformed p)

/-- The number of entries of a tree that are not on a chain. -/
def unvisited (t : FileTree) (chain : List Path) : Nat :=
  t.entries.countP fun e => !isOn chain (pathOf e.1)

theorem isOn_append_self (chain : List Path) (p : Path) : isOn (chain ++ [p]) p = true := by
  simp [isOn, Path.same]

theorem isOn_append_of_isOn {chain : List Path} {p : Path} (q : Path) (h : isOn chain p = true) :
    isOn (chain ++ [q]) p = true := by
  simp [isOn] at h ⊢; exact Or.inl h

theorem found?_of_read {t : FileTree} {p : Path} {text : String} (h : t.read p = .ok text) :
    ∃ here content, t.locate p = .ok here ∧ t.found? here = some (.file content) := by
  unfold read at h
  cases hl : t.locate p with
  | error fault => simp [hl, bind, Except.bind] at h
  | ok here =>
    simp only [hl, bind, Except.bind] at h
    split at h
    · rename_i content he
      exact ⟨here, content, rfl, he⟩
    · cases h

theorem mem_of_found?_file {t : FileTree} {here : Location} {content : ByteArray}
    (h : t.found? here = some (.file content)) : (here, Entry.file content) ∈ t.entries := by
  unfold found? at h
  split at h
  · simp at h
  · obtain ⟨e, he, hentry⟩ := Option.map_eq_some_iff.1 h
    obtain ⟨d, entry⟩ := e
    have hd : d = here := by simpa using List.find?_some he
    subst hd
    exact hentry ▸ List.mem_of_find?_eq_some he

theorem countP_lt_countP {α : Type} {p q : α → Bool} {l : List α} {a : α}
    (himp : ∀ x, p x = true → q x = true) (ha : a ∈ l) (hq : q a = true) (hp : p a = false) :
    l.countP p < l.countP q := by
  induction l with
  | nil => cases ha
  | cons b l ih =>
    have hmono : l.countP p ≤ l.countP q := List.countP_mono_left fun x _ => himp x
    rcases List.mem_cons.1 ha with rfl | ha
    · simp only [List.countP_cons, hp, hq]
      simp only [Bool.false_eq_true, ↓reduceIte]
      omega
    · have := ih ha
      simp only [List.countP_cons]
      by_cases hb : p b = true
      · simp only [hb, himp b hb, ↓reduceIte]; omega
      · simp only [hb, Bool.false_eq_true, ↓reduceIte]; omega

/-- **Fewer files are left.** A file that was read and was not on the chain is one less to visit. -/
theorem unvisited_lt {t : FileTree} {chain : List Path} {p : Path} {document : Node}
    (hread : t.readDocument p = .ok document) (hnew : isOn chain (t.identity p) = false) :
    t.unvisited (chain ++ [t.identity p]) < t.unvisited chain := by
  have ⟨text, htext⟩ : ∃ text, t.read p = .ok text := by
    unfold readDocument at hread
    split at hread
    · cases hread
    · rename_i text htext; exact ⟨text, htext⟩
  obtain ⟨here, content, hlocate, hentry⟩ := found?_of_read htext
  have hid : t.identity p = pathOf here := by rw [identity, canonical?_of_locate hlocate]; rfl
  refine countP_lt_countP (fun e he => ?_) (mem_of_found?_file hentry) ?_ ?_
  · simp only [Bool.not_eq_eq_eq_not, Bool.not_true] at he ⊢
    cases hon : isOn chain (pathOf e.1) with
    | false => rfl
    | true => rw [isOn_append_of_isOn _ hon] at he; cases he
  · simpa [← hid] using hnew
  · simpa [← hid] using isOn_append_self chain (t.identity p)

/-- The document of a file with its fragments beneath it, on a chain of files. -/
def resolveOn (t : FileTree) (chain : List Path) (p : Path) : Except DescriptorError Node :=
  if hchain : isOn chain (t.identity p) = true then
    .error (.includeCycle (chain ++ [t.identity p]))
  else
    match hread : t.readDocument p with
    | .error e => .error e
    | .ok document =>
      match includeEntries document p with
      | .error e => .error e
      | .ok entries => do
        have := unvisited_lt hread (Bool.not_eq_true _ ▸ hchain)
        let fragments ← entries.mapM fun entry =>
          resolveOn t (chain ++ [t.identity p]) (p.directory.join ⟨entry⟩)
        pure ((fragments.foldl Node.merge (.map [])).merge (withoutDirective document))
termination_by t.unvisited chain

/-- The document of a file with its fragments beneath it. -/
def resolve (t : FileTree) (p : Path) : Except DescriptorError Node :=
  t.resolveOn [] p

end FileTree

end Foundry
