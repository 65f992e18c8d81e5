import Foundry.Proofs.Descriptor.Resolution

/-!
# What becomes of the directive

A directive is read through a tag around the document, but it is taken out of documents without a
tag only. So a document with a tag keeps its directive, although the fragments that it names are
resolved, and since nothing merges into a document with a tag it is the whole result.

* `cleared_of_resolve`: what is resolved to a mapping without a tag has no key for a directive, not
  even one with a tag.
* `resolve_keeps_directive_iff`: the exact condition under which a directive is kept.
-/

namespace Foundry

open Yaml

/-- Whether a document has a directive, read as a directive is: through tags around the document. -/
def hasDirective (n : Node) : Bool :=
  (n.entries?.bind (·.field? directiveKey)).isSome

/-- If the value is a mapping without a tag, no key of it stands for the directive. -/
def Cleared (n : Node) : Prop :=
  ∀ es : Entries, n = .map es → ∀ k ∈ es.keys, k.string? ≠ some directiveKey

variable {t : FileTree} {p : Path} {document d own : Node} {es : Entries}

/-! ### Directives that are taken out -/

theorem cleared_of_not_isMap (h : d.isMap = false) : Cleared d := by
  rintro es rfl
  cases h

theorem cleared_empty : Cleared (.map []) := by
  intro es hes k hk
  rw [← Node.map.inj hes] at hk
  exact absurd hk List.not_mem_nil

/-- The own content of a file has no directive at its top. -/
theorem cleared_withoutDirective (document : Node) : Cleared (withoutDirective document) := by
  cases document with
  | null => exact cleared_empty
  | map es =>
    intro fs hfs k hk
    rw [← Node.map.inj hfs] at hk
    obtain ⟨e, he, rfl⟩ := List.mem_map.1 hk
    simpa using (List.mem_filter.1 he).2
  | _ => exact cleared_of_not_isMap rfl

/-- A merge of values without a directive has none. -/
theorem Cleared.merge {a b : Node} (ha : Cleared a) (hb : Cleared b) : Cleared (a.merge b) := by
  by_cases hmaps : a.isMap = false ∨ b.isMap = false
  · rw [Node.merge_eq_overlay hmaps]
    exact hb
  · rw [not_or, Bool.not_eq_false, Bool.not_eq_false, Node.isMap_iff, Node.isMap_iff] at hmaps
    obtain ⟨⟨es, rfl⟩, fs, rfl⟩ := hmaps
    intro gs hgs k hk
    rw [Node.merge_map, Node.map.injEq] at hgs
    rw [← hgs, Node.keys_mergeEntries] at hk
    rcases Entries.mem_of_mem_foldl_addKey hk with hk | hk
    · exact ha es rfl k hk
    · exact hb fs rfl k hk

/-- Whatever is resolved has no directive, where it is a mapping without a tag. -/
theorem cleared_of_resolve (h : t.resolve p = .ok d) : Cleared d :=
  FileTree.resolveOn_induction cleared_empty (fun _ _ => Cleared.merge)
    (fun _ document _ => cleared_withoutDirective document) h

theorem field?_directive_of_cleared (h : Cleared (.map es)) : es.field? directiveKey = none := by
  rw [Entries.field?, Entries.find?_eq_none_iff]
  intro e he
  rw [Bool.eq_false_iff, ne_eq, Node.same_str_iff]
  intro hkey
  refine h es rfl e.1 (List.mem_map_of_mem he) ?_
  rw [hkey]
  rfl

/-- A mapping without a directive at its top has none to be seen. -/
theorem hasDirective_of_cleared (hcleared : Cleared d) (hmap : d.isMap = true) :
    hasDirective d = false := by
  obtain ⟨es, rfl⟩ := Node.isMap_iff.1 hmap
  show (Entries.field? directiveKey es).isSome = false
  rw [field?_directive_of_cleared hcleared]
  rfl

/-! ### Directives that are kept -/

/-- A document with a directive and a tag is left as it is. -/
theorem withoutDirective_cases (document : Node) :
    ((withoutDirective document).isMap = true ∧
        ¬ (document.isMap = false ∧ hasDirective document = true)) ∨
      (document.isMap = false ∧ withoutDirective document = document) := by
  cases document with
  | map es => exact Or.inl ⟨rfl, fun h => Bool.noConfusion h.1⟩
  | null => exact Or.inl ⟨rfl, fun h => Bool.noConfusion h.2⟩
  | _ => exact Or.inr ⟨rfl, rfl⟩

theorem isMap_overFragments {fragments : List Node} (h : own.isMap = true) :
    (FileTree.overFragments own fragments).isMap = true := by
  obtain ⟨es, rfl⟩ := Node.isMap_iff.1 h
  rw [FileTree.overFragments]
  cases fragments.foldl Node.merge (.map []) <;> rfl

/-- **When a directive is kept.** The document that is resolved has a directive if the file's own
one has a directive and a tag; then it is the file's own document. -/
theorem resolve_keeps_directive_iff (h : t.resolve p = .ok d) :
    ∃ document, t.readDocument p = .ok document ∧
      (hasDirective d = true ↔ document.isMap = false ∧ hasDirective document = true) ∧
      (hasDirective d = true → d = document) := by
  have hcleared := cleared_of_resolve h
  obtain ⟨_, document, entries, fragments, hread, _, _, hd⟩ := FileTree.resolveOn_eq_ok_iff.1 h
  refine ⟨document, hread, ?_⟩
  rcases withoutDirective_cases document with ⟨hown, hnot⟩ | ⟨hdocument, hown⟩
  · -- Own content without a tag makes a result without one.
    have hnone : ¬ hasDirective d = true := by
      rw [hasDirective_of_cleared hcleared (hd ▸ isMap_overFragments hown)]
      decide
    exact ⟨iff_of_false hnone hnot, fun hkept => absurd hkept hnone⟩
  · have hsame : d = document := by
      rw [hd, FileTree.overFragments, hown, Node.merge_eq_overlay (Or.inr hdocument)]
    rw [hsame]
    exact ⟨(and_iff_right hdocument).symm, fun _ => rfl⟩

/-- A document with a tag that includes another one. -/
def taggedIncluder : FileTree :=
  ⟨[(["w"], .directory), (["w", "a.yml"], .file "!x \x7binclude: b.yml, k: 1\x7d".toUTF8),
    (["w", "b.yml"], .file "j: 2".toUTF8)], ["w"]⟩

/-- The directive is still there. -/
theorem directive_kept_of_taggedIncluder :
    ∃ d, taggedIncluder.resolve ⟨"a.yml"⟩ = .ok d ∧ hasDirective d = true := by
  have hresolve : (taggedIncluder.resolve ⟨"a.yml"⟩).toBool = true := by decide +kernel
  have hread : ((taggedIncluder.readDocument ⟨"a.yml"⟩).toOption.all fun document =>
      !document.isMap && hasDirective document) = true := by decide +kernel
  cases h : taggedIncluder.resolve ⟨"a.yml"⟩ with
  | error e =>
    rw [h] at hresolve
    cases hresolve
  | ok d =>
    obtain ⟨document, hdocument, hiff, _⟩ := resolve_keeps_directive_iff h
    rw [hdocument] at hread
    refine ⟨d, rfl, hiff.2 ?_⟩
    simpa [Except.toOption] using hread

end Foundry
