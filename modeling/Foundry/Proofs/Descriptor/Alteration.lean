import Foundry.Proofs.Descriptor.Resolution
import Foundry.Proofs.Yaml.Shape

/-!
# Altered files

Two trees may differ by the documents of some files, which are related one by one (`Altered`). As
long as related documents include the same paths, a search takes the same way through both trees: it
fails with the same error, or finds related documents.

* `agrees_mapM`, `agrees_bind`: results that agree, step by step.
* `resolveOn_of_isOn`: a document that is found on a chain is found on one with fewer files.
* `agrees_resolveOn`: what is found in both trees.
-/

namespace Foundry

open Yaml

/-! ### Results that agree -/

section Agrees

variable {ε α β γ : Type} {R : α → α → Prop} {S : β → β → Prop}

/-- Two computations fail with the same error or end well with related results. -/
def Agrees (R : α → α → Prop) (x y : Except ε α) : Prop :=
  (∃ e, x = .error e ∧ y = .error e) ∨ ∃ a b, x = .ok a ∧ y = .ok b ∧ R a b

/-- Equal computations agree, if the relation is reflexive where they end well. -/
theorem agrees_of_eq {x y : Except ε α} (hR : ∀ a, x = .ok a → R a a) (h : y = x) :
    Agrees R x y := by
  rw [h]
  cases x with
  | error e => exact Or.inl ⟨e, rfl, rfl⟩
  | ok a => exact Or.inr ⟨a, a, rfl, rfl, hR a rfl⟩

/-- Computations that agree may be continued by ones that agree on related results. -/
theorem agrees_bind {x y : Except ε α} {f g : α → Except ε β} (h : Agrees R x y)
    (hfg : ∀ a b, x = .ok a → y = .ok b → R a b → Agrees S (f a) (g b)) :
    Agrees S (x >>= f) (y >>= g) := by
  rcases h with ⟨e, rfl, rfl⟩ | ⟨a, b, rfl, rfl, hab⟩
  · exact Or.inl ⟨e, rfl, rfl⟩
  · exact hfg a b rfl rfl hab

theorem agrees_mapM {f g : γ → Except ε α} {xs : List γ} (h : ∀ x ∈ xs, Agrees R (f x) (g x)) :
    Agrees (List.Forall₂ R) (xs.mapM f) (xs.mapM g) := by
  induction xs with
  | nil => exact Or.inr ⟨[], [], rfl, rfl, .nil⟩
  | cons x xs ih =>
    rw [List.forall_mem_cons] at h
    rw [List.mapM_cons, List.mapM_cons]
    refine agrees_bind h.1 fun a b _ _ hab => agrees_bind (ih h.2) fun as bs _ _ habs => ?_
    exact Or.inr ⟨_, _, rfl, rfl, .cons hab habs⟩

/-- What does not tell related results apart makes agreeing computations equal. -/
theorem bind_eq_of_agrees {x y : Except ε α} {f : α → Except ε β} (h : Agrees R x y)
    (hf : ∀ a b, x = .ok a → y = .ok b → R a b → f b = f a) : y >>= f = x >>= f := by
  rcases h with ⟨e, rfl, rfl⟩ | ⟨a, b, rfl, rfl, hab⟩
  · rfl
  · exact hf a b rfl rfl hab

end Agrees

namespace FileTree

variable {R : Node → Node → Prop} {t u : FileTree} {p q : Path} {d : Node} {here : Location}

/-! ### Altered trees -/

/-- A tree that differs from another one by documents of files, which are related. -/
structure Altered (R : Node → Node → Prop) (t u : FileTree) : Prop where
  workingDirectory : u.workingDirectory = t.workingDirectory
  found : ∀ here, u.found? here = t.found? here ∨
    ∃ content content' document document', t.found? here = some (.file content) ∧
      u.found? here = some (.file content') ∧ t.documentAt? here = some document ∧
      u.documentAt? here = some document' ∧ R document document'

/-- A document is read as before where nothing was put. -/
theorem readDocument_put_of_ne {there : Location} {entry : Entry}
    (hread : t.readDocument p = .ok d) (hlocate : t.locate p = .ok there)
    (hlocate' : (t.put here entry).locate p = .ok there) (hne : here ≠ there) :
    (t.put here entry).readDocument p = .ok d := by
  obtain ⟨_, hlocated, hdocument⟩ := readDocument_eq_ok_iff.1 hread
  rw [hlocate, Except.ok.injEq] at hlocated
  rw [← hlocated] at hdocument
  refine readDocument_eq_ok_iff.2 ⟨there, hlocate', ?_⟩
  rwa [documentAt?, found?_put_of_ne t hne]

/-- A file in the place of another one alters a tree. -/
theorem altered_put {text : String} {document document' : Node}
    (hdocument : t.documentAt? here = some document)
    (hdocument' : Node.ofText? text = some document') (hR : R document document') :
    Altered R t (t.put here (.file text.toUTF8)) where
  workingDirectory := rfl
  found there := by
    by_cases hthere : here = there
    · subst hthere
      obtain ⟨content, _, hfile, _⟩ := documentAt?_eq_some_iff.1 hdocument
      have hne : here ≠ [] := by
        rintro rfl
        cases hfile
      have hput := found?_put_self t hne (.file text.toUTF8)
      refine Or.inr ⟨content, _, document, document', hfile, hput, hdocument, ?_, hR⟩
      rw [documentAt?_of_text hput, hdocument']
    · exact Or.inl (found?_put_of_ne t hthere _)

theorem Altered.isDirectory (h : Altered R t u) (here : Location) :
    u.isDirectory here = t.isDirectory here := by
  rw [FileTree.isDirectory, FileTree.isDirectory]
  rcases h.found here with hsame | ⟨_, _, _, _, ht, hu, _⟩
  · rw [hsame]
  · rw [ht, hu]

theorem Altered.isSome_found? (h : Altered R t u) (here : Location) :
    (u.found? here).isSome = (t.found? here).isSome := by
  rcases h.found here with hsame | ⟨_, _, _, _, ht, hu, _⟩
  · rw [hsame]
  · rw [ht, hu]
    rfl

/-- Paths lead to the same places, since only the contents of files differ. -/
theorem Altered.walk (h : Altered R t u) : u.walk = t.walk := by
  have hstep : u.step = t.step := by
    funext here segment
    rw [FileTree.step, FileTree.step, h.isDirectory]
    simp only [h.isSome_found?]
  funext p
  rw [FileTree.walk, FileTree.walk, hstep, start, start, h.workingDirectory]

theorem Altered.locate (h : Altered R t u) : u.locate = t.locate := by
  funext p
  rw [FileTree.locate, FileTree.locate, h.walk]

/-- A path stands for the same file on a chain. -/
theorem Altered.identity (h : Altered R t u) (p : Path) : u.identity p = t.identity p := by
  rw [FileTree.identity, FileTree.identity, canonical?, canonical?, h.walk]

theorem wellKeyed_of_readDocument (h : t.readDocument p = .ok d) : d.WellKeyed := by
  obtain ⟨here, _, hdocument⟩ := readDocument_eq_ok_iff.1 h
  exact wellKeyed_of_documentAt? hdocument

/-- Reading a file fails alike or gives related documents. -/
theorem Altered.readDocument (h : Altered R t u) (hrefl : ∀ n : Node, n.WellKeyed → R n n)
    (p : Path) : Agrees R (t.readDocument p) (u.readDocument p) := by
  have hlocate : u.locate p = t.locate p := by rw [h.locate]
  have hsame : u.read p = t.read p → Agrees R (t.readDocument p) (u.readDocument p) := by
    intro hread
    refine agrees_of_eq (fun d hd => hrefl d (wellKeyed_of_readDocument hd)) ?_
    rw [FileTree.readDocument, FileTree.readDocument, hread]
  cases hhere : t.locate p with
  | error fault =>
    refine hsame ?_
    rw [FileTree.read, FileTree.read, hlocate, hhere]
    rfl
  | ok here =>
    rw [hhere] at hlocate
    rcases h.found here with hfound | ⟨_, _, document, document', _, _, ht, hu, hR⟩
    · refine hsame ?_
      rw [FileTree.read, FileTree.read, hlocate, hhere]
      simp only [bind, Except.bind, hfound]
    · exact Or.inr ⟨document, document', readDocument_eq_ok_iff.2 ⟨here, hhere, ht⟩,
        readDocument_eq_ok_iff.2 ⟨here, hlocate, hu⟩, hR⟩

/-! ### Searches -/

/-- A document that is found on a chain is found on one with fewer files. -/
theorem resolveOn_of_isOn {chain chain' : List Path} (h : t.resolveOn chain' p = .ok d)
    (hsub : ∀ q, isOn chain q = true → isOn chain' q = true) : t.resolveOn chain p = .ok d := by
  -- Every call puts a file on the chain, so there is less to visit.
  induction hn : t.unvisited chain' using Nat.strong_induction_on
    generalizing chain chain' p d with
  | h n ih =>
    subst hn
    obtain ⟨hoff, document, entries, fragments, hread, hentries, hfragments, hd⟩ :=
      resolveOn_eq_ok_iff.1 h
    have hoff' : isOn chain (t.identity p) = false := by
      rw [Bool.eq_false_iff]
      intro hon
      rw [hsub _ hon] at hoff
      cases hoff
    have hsub' : ∀ q, isOn (chain ++ [t.identity p]) q = true →
        isOn (chain' ++ [t.identity p]) q = true := by
      intro q hq
      rw [isOn, List.any_append, Bool.or_eq_true] at hq ⊢
      exact hq.imp_left (hsub q)
    refine resolveOn_eq_ok_iff.2 ⟨hoff', document, entries, fragments, hread, hentries, ?_, hd⟩
    exact hfragments.imp fun e fragment he => ih _ (unvisited_lt hread hoff) he hsub' rfl

theorem resolve_of_resolveOn {chain : List Path} (h : t.resolveOn chain p = .ok d) :
    t.resolve p = .ok d :=
  resolveOn_of_isOn h (by simp [isOn])

/-- What is laid one over another at the file of a path: the fragments that it includes, and what it
says itself. -/
def Layers (t : FileTree) (p : Path) (layers : List Node) : Prop :=
  ∃ document entries fragments, t.readDocument p = .ok document ∧
    includedPaths document = .ok entries ∧
    List.Forall₂ (fun e fragment => t.resolve (p.directory.join ⟨e⟩) = .ok fragment) entries
      fragments ∧
    layers = fragments ++ [withoutDirective document]

theorem wellKeyed_of_layers {layers : List Node} (h : t.Layers p layers) :
    ∀ n ∈ layers, n.WellKeyed := by
  obtain ⟨document, entries, fragments, hread, _, hfragments, rfl⟩ := h
  rw [List.forall_mem_append, List.forall_mem_singleton]
  refine ⟨fun n hn => ?_, wellKeyed_withoutDirective (wellKeyed_of_readDocument hread)⟩
  obtain ⟨_, _, hresolve⟩ := exists_of_forall₂ hfragments.flip hn
  exact wellKeyed_of_resolve hresolve

/-- The layers at a file that is read: what its entries come to, and its own content on top. -/
theorem layers_iff {document : Node} {entries : List String} {layers : List Node}
    (hread : t.readDocument p = .ok document) (hentries : includedPaths document = .ok entries) :
    t.Layers p layers ↔ ∃ fragments,
      List.Forall₂ (fun e fragment => t.resolve (p.directory.join ⟨e⟩) = .ok fragment) entries
        fragments ∧ layers = fragments ++ [withoutDirective document] := by
  rw [Layers, hread]
  simp only [Except.ok.injEq, exists_and_left, exists_eq_left', hentries]

theorem forms_iff_of_readDocument {document : Node} {entries : List String}
    (hread : t.readDocument p = .ok document) (hentries : includedPaths document = .ok entries) :
    t.Forms p q ↔ ∃ e ∈ entries, q = p.directory.join ⟨e⟩ := by
  obtain ⟨here, hlocate, hdocument⟩ := readDocument_eq_ok_iff.1 hread
  exact forms_iff hlocate hdocument hentries

/-- **One way through both trees.** Where related layers stack up to related documents, a search
agrees in both. -/
theorem agrees_resolveOn (h : Altered R t u) (hrefl : ∀ n : Node, n.WellKeyed → R n n)
    (hpaths : ∀ a b, R a b → includedPaths a = includedPaths b)
    (hown : ∀ a b, R a b → R (withoutDirective a) (withoutDirective b))
    (hstack : ∀ q, Relation.ReflTransGen t.Forms p q → ∀ layers layers', t.Layers q layers →
      u.Layers q layers' → List.Forall₂ R layers layers' →
      R (Node.stacked layers) (Node.stacked layers'))
    (chain : List Path) : Agrees R (t.resolveOn chain p) (u.resolveOn chain p) := by
  induction hn : t.unvisited chain using Nat.strong_induction_on generalizing chain p with
  | h n ih =>
    subst hn
    rw [resolveOn_eq_bind, resolveOn_eq_bind u, h.identity]
    split
    · exact Or.inl ⟨_, rfl, rfl⟩
    · rename_i hoff
      rw [Bool.not_eq_true] at hoff
      refine agrees_bind (h.readDocument hrefl p) fun document document' hread hread' hR => ?_
      have hentries_eq : includeEntries document p = includeEntries document' p := by
        rw [includeEntries, includeEntries, hpaths _ _ hR]
      rw [← hentries_eq]
      cases hentries : includeEntries document p with
      | error e => exact Or.inl ⟨e, rfl, rfl⟩
      | ok entries =>
        have hless := unvisited_lt hread hoff
        rw [includeEntries_eq_ok_iff] at hentries
        have hcalls : ∀ e ∈ entries, Agrees R
            (t.resolveOn (chain ++ [t.identity p]) (p.directory.join ⟨e⟩))
            (u.resolveOn (chain ++ [t.identity p]) (p.directory.join ⟨e⟩)) := by
          intro e he
          have hforms := (forms_iff_of_readDocument hread hentries).2 ⟨e, he, rfl⟩
          refine ih _ hless (fun q hq => hstack q (Relation.ReflTransGen.head hforms hq)) _ rfl
        show Agrees R (entries.mapM _ >>= _) (entries.mapM _ >>= _)
        refine agrees_bind (agrees_mapM hcalls) fun fragments fragments' hok hok' hfragments => ?_
        rw [mapM_eq_ok_iff] at hok hok'
        refine Or.inr ⟨_, _, rfl, rfl, ?_⟩
        have hlayers : t.Layers p (fragments ++ [withoutDirective document]) :=
          (layers_iff hread hentries).2 ⟨fragments, hok.imp fun _ _ => resolve_of_resolveOn, rfl⟩
        have hlayers' : u.Layers p (fragments' ++ [withoutDirective document']) :=
          (layers_iff hread' (hpaths _ _ hR ▸ hentries)).2
            ⟨fragments', hok'.imp fun _ _ => resolve_of_resolveOn, rfl⟩
        -- All fragments are there in both trees, so the layers are related one by one.
        have hstacked := hstack p Relation.ReflTransGen.refl _ _ hlayers hlayers'
          (List.rel_append hfragments (.cons (hown _ _ hR) .nil))
        rwa [Node.stacked_append_singleton, Node.stacked_append_singleton] at hstacked

end FileTree

end Foundry
