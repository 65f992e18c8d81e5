import Foundry.Proofs.Descriptor.Alteration

/-!
# Who is to blame for a descriptor that cannot be resolved

A search that fails is told by an error that names a file, unless it met a cycle. This file is the
one that is wrong: it cannot be read, is not a document, or has a directive that names no files. The
search came to it from entry to entry of files that are right, by the paths that are formed on the
way, and all entries that it left behind resolve (`Descends`).

* `fails_of_readDocument`: why there is no document of a file.
* `blames_of_resolveOn`: what a call of `resolveOn` leads to when it fails.
* `resolve_blames`: the file that an error names.
-/

namespace Foundry

open Yaml

namespace FileTree

variable {t : FileTree} {p q f : Path} {err : DescriptorError}

/-- A search goes from a file on to one of its entries: the file is read and has a directive that
names files, and every entry before this one resolves. -/
def Descends (t : FileTree) (q r : Path) : Prop :=
  ∃ document before e after, t.readDocument q = .ok document ∧
    includedPaths document = .ok (before ++ e :: after) ∧ r = q.directory.join ⟨e⟩ ∧
    ∀ b ∈ before, ∃ d, t.resolve (q.directory.join ⟨b⟩) = .ok d

/-- A file is wrong by itself, in the way that an error tells. -/
inductive Fails (t : FileTree) (f : Path) : DescriptorError → Prop
  | unreadable {fault : Fault} (h : t.read f = .error fault) : Fails t f (.unreadable f fault)
  | malformed {text : String} (hread : t.read f = .ok text) (h : Node.ofText? text = none) :
    Fails t f (.malformed f)
  | directive {document : Node} {fault : DirectiveFault} (hread : t.readDocument f = .ok document)
    (h : includedPaths document = .error fault) : Fails t f (.invalidDirective f fault)

theorem fails_of_readDocument (h : t.readDocument f = .error err) : t.Fails f err := by
  unfold readDocument at h
  split at h
  · rename_i fault hfault
    rw [← Except.error.inj h]
    exact .unreadable hfault
  · rename_i text htext
    split at h
    · cases h
    · rename_i hnone
      rw [← Except.error.inj h]
      exact .malformed htext hnone

/-- **One step.** A call of `resolveOn` that fails is about its own file, goes on to an entry, or
meets a file again. -/
theorem cases_of_resolveOn_eq_error {chain : List Path} (h : t.resolveOn chain p = .error err) :
    (∃ cycle, err = .includeCycle cycle) ∨ t.Fails p err ∨
      t.unvisited (chain ++ [t.identity p]) < t.unvisited chain ∧
        ∃ q, t.Descends p q ∧ t.resolveOn (chain ++ [t.identity p]) q = .error err := by
  rcases resolveOn_eq_error_iff.1 h with ⟨_, hcycle⟩ | ⟨hoff, h | ⟨document, hread, h⟩⟩
  · exact Or.inl ⟨_, hcycle⟩
  · exact Or.inr (Or.inl (fails_of_readDocument h))
  rcases h with ⟨fault, hfault, rfl⟩ | ⟨before, e, after, hentries, hbefore, he⟩
  · exact Or.inr (Or.inl (.directive hread hfault))
  · refine Or.inr (Or.inr ⟨unvisited_lt hread hoff, p.directory.join ⟨e⟩, ?_, he⟩)
    refine ⟨document, before, e, after, hread, hentries, rfl, fun b hb => ?_⟩
    obtain ⟨d, hd⟩ := hbefore b hb
    exact ⟨d, resolve_of_resolveOn hd⟩

/-- **A call that fails** does so over a cycle, or over a file that it reaches and that fails. -/
theorem blames_of_resolveOn {chain : List Path} (h : t.resolveOn chain p = .error err) :
    (∃ cycle, err = .includeCycle cycle) ∨
      ∃ f, Relation.ReflTransGen t.Descends p f ∧ t.Fails f err := by
  -- The chain grows with every call, so the induction is on what is not on it.
  induction hn : t.unvisited chain using Nat.strong_induction_on generalizing chain p with
  | h n ih =>
    subst hn
    rcases cases_of_resolveOn_eq_error h with hcycle | hfails | ⟨hless, q, hdescends, h⟩
    · exact Or.inl hcycle
    · exact Or.inr ⟨p, Relation.ReflTransGen.refl, hfails⟩
    · refine (ih _ hless h rfl).imp_right ?_
      rintro ⟨f, hreach, hfails⟩
      exact ⟨f, Relation.ReflTransGen.head hdescends hreach, hfails⟩

/-- **The right file is blamed.** A search that fails and met no cycle came to a file that is wrong
by itself, and tells this file, by the path that it came by, and what is wrong with it. -/
theorem resolve_blames (h : t.resolve p = .error err)
    (hcycle : ∀ chain, err ≠ .includeCycle chain) :
    ∃ f, Relation.ReflTransGen t.Descends p f ∧ t.Fails f err := by
  rcases blames_of_resolveOn h with ⟨cycle, herr⟩ | hblames
  · exact absurd herr (hcycle cycle)
  · exact hblames

/-- A file with two fragments, of which the second one includes a file that is missing. -/
def brokenIncluder : FileTree :=
  ⟨[(["w"], .directory), (["w", "a.yml"], .file "include: [b.yml, sub/c.yml]".toUTF8),
    (["w", "b.yml"], .file "k: 1".toUTF8), (["w", "sub"], .directory),
    (["w", "sub", "c.yml"], .file "include: d.yml".toUTF8)], ["w"]⟩

/-- The missing file is told, and not the one that is resolved. -/
theorem resolve_blames_brokenIncluder :
    brokenIncluder.resolve ⟨"a.yml"⟩ = .error (.unreadable ⟨"sub/d.yml"⟩ .notFound) ∧
      Relation.ReflTransGen brokenIncluder.Descends ⟨"a.yml"⟩ ⟨"sub/d.yml"⟩ ∧
      brokenIncluder.Fails ⟨"sub/d.yml"⟩ (.unreadable ⟨"sub/d.yml"⟩ .notFound) := by
  have h : brokenIncluder.resolve ⟨"a.yml"⟩ =
      .error (.unreadable ⟨"sub/d.yml"⟩ .notFound) := by
    decide +kernel
  obtain ⟨f, hreach, hfails⟩ := resolve_blames h (fun _ => nofun)
  obtain rfl : f = ⟨"sub/d.yml"⟩ := by
    cases hfails
    rfl
  exact ⟨h, hreach, hfails⟩

end FileTree

end Foundry
