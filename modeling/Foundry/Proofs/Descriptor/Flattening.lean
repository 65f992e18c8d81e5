import Foundry.Proofs.Descriptor.Resolution
import Foundry.Proofs.Yaml.Shape

/-!
# Includes as one sequence

Where the files of an include graph are mappings of one shape, it does not matter how they are
grouped: the document is what the files' own contents make when they are stacked in `PostOrder`,
each file behind the ones it includes and as often as it is included.

* `reference_of_postOrder`: the reference is the stack of the contents.
* `resolve_eq_stacked`: so is what `resolve` finds, and its values and the order of its keys are
  those of a stack.
-/

namespace Foundry

open Yaml

namespace FileTree

variable {t : FileTree} {here : Location} {p : Path} {contents : List Node} {d : Node}

/-- The own contents of the files that a file leads to, those that it includes before its own. -/
def PostOrder (t : FileTree) : Location → List Node → Prop :=
  t.Evaluates fun own orders => orders.flatten ++ [own]

/-- No path leads to a mapping in one of the contents and to something else in another. -/
def ShapeConsistent (contents : List Node) : Prop :=
  ∀ a ∈ contents, ∀ b ∈ contents, ∀ p : List Node, (∀ k ∈ p, k.WellKeyed) → ∀ v w,
    a.at? p = some v → b.at? p = some w → v.isMap = w.isMap

open Classical in
/-- Contents that agree on where mappings are have one shape: a path is that of a mapping if it
leads to one anywhere. -/
theorem ShapeConsistent.exists_shape (h : ShapeConsistent contents) :
    ∃ shape, ∀ c ∈ contents, Node.Shaped shape c := by
  refine ⟨fun p => decide (∃ c ∈ contents, ∃ v, c.at? p = some v ∧ v.isMap = true), ?_⟩
  intro c hc p hp v hv
  rw [Bool.eq_iff_iff, decide_eq_true_iff]
  constructor
  · intro hmap
    exact ⟨c, hc, v, hv, hmap⟩
  · rintro ⟨b, hb, w, hw, hmap⟩
    rw [h c hc b hb p hp v w hv hw]
    exact hmap

theorem wellKeyed_of_postOrder (h : t.PostOrder here contents) : ∀ c ∈ contents, c.WellKeyed := by
  induction h using Evaluates.induct with
  | of_source here s orders hs _ ih =>
    rw [List.forall_mem_append, List.forall_mem_singleton]
    refine ⟨fun c hc => ?_, wellKeyed_of_source? hs⟩
    obtain ⟨order, horder, hc⟩ := List.mem_flatten.1 hc
    obtain ⟨_, _, _, hwell⟩ := exists_of_forall₂ ih.flip horder
    exact hwell c hc

theorem ne_nil_of_postOrder (h : t.PostOrder here contents) : contents ≠ [] := by
  obtain ⟨s, orders, _, _, rfl⟩ := evaluates_iff.1 h
  exact List.append_ne_nil_of_right_ne_nil _ (List.cons_ne_nil _ _)

/-! ### Stacks in a stack -/

section Shaped

variable {shape : List Node → Bool} (hshape : shape [] = true)

include hshape

/-- Stacks that are laid one over another are one stack, if everything in them has one shape. -/
theorem foldl_merge_stacked {ns : List Node} {groups : List (List Node)}
    (hns : ∀ n ∈ ns, n.WellKeyed ∧ Node.Shaped shape n)
    (hgroups : ∀ n ∈ groups.flatten, n.WellKeyed ∧ Node.Shaped shape n) :
    (groups.map Node.stacked).foldl Node.merge (Node.stacked ns) =
      Node.stacked (ns ++ groups.flatten) := by
  induction groups generalizing ns with
  | nil => rw [List.flatten_nil, List.append_nil, List.map_nil, List.foldl_nil]
  | cons group groups ih =>
    rw [List.flatten_cons, List.forall_mem_append] at hgroups
    rw [List.map_cons, List.foldl_cons, Node.stacked_append hshape hns hgroups.1,
      ih (List.forall_mem_append.2 ⟨hns, hgroups.1⟩) hgroups.2, List.flatten_cons,
      List.append_assoc]

/-- **The reference is a stack.** -/
theorem reference_of_postOrder (h : t.PostOrder here contents)
    (hshaped : ∀ c ∈ contents, Node.Shaped shape c) : t.Reference here (Node.stacked contents) := by
  have hwell := wellKeyed_of_postOrder h
  induction h using Evaluates.induct with
  | of_source here s orders hs _ ih =>
    rw [List.forall_mem_append] at hshaped hwell
    have hboth : ∀ c ∈ orders.flatten, c.WellKeyed ∧ Node.Shaped shape c :=
      fun c hc => ⟨hwell.1 c hc, hshaped.1 c hc⟩
    have hfragments : List.Forall₂ t.Reference s.targets (orders.map Node.stacked) := by
      rw [List.forall₂_map_right_iff]
      refine forall₂_imp_of_mem ih fun there _ order horder ⟨_, hreference⟩ => ?_
      exact hreference (fun c hc => hshaped.1 c (List.mem_flatten_of_mem horder hc))
        fun c hc => hwell.1 c (List.mem_flatten_of_mem horder hc)
    -- The fragments are stacks, and they are laid over nothing.
    have hstack := foldl_merge_stacked hshape (List.forall_mem_nil _) hboth
    rw [List.nil_append] at hstack
    rw [Node.stacked_append_singleton, ← hstack]
    exact evaluates_iff.2 ⟨s, _, hs, hfragments, rfl⟩

end Shaped

/-- **Grouping does not matter.** Where the files are mappings of one shape, the document is the
stack of their contents. So what is no mapping comes from the last file that has something at its
path, and the keys of every mapping stand in the order in which the files define them first. -/
theorem resolve_eq_stacked (ht : t.Grounded) (h : t.resolve p = .ok d) :
    ∃ here contents, t.locate p = .ok here ∧ (∀ cs, t.PostOrder here cs ↔ cs = contents) ∧
      ((∀ c ∈ contents, c.isMap = true) → ShapeConsistent contents →
        d = contents.foldl Node.merge (.map []) ∧
        (∀ q : List Node, (∀ k ∈ q, k.WellKeyed) → ∀ v, v.isMap = false →
          (d.at? q = some v ↔ (contents.filterMap (·.at? q)).getLast? = some v)) ∧
        ∀ q : List Node, (∀ k ∈ q, k.WellKeyed) →
          Node.keysAt q d = (contents.flatMap (Node.keysAt q)).foldl Entries.addKey []) := by
  obtain ⟨_, here, hlocate, hreference⟩ := (resolve_eq_ok_iff ht).1 h
  -- The document has a value on the graph of includes, so the order has one as well.
  obtain ⟨contents, horder⟩ : ∃ contents, t.PostOrder here contents :=
    exists_evaluates_iff.2 ⟨hreference.sound, hreference.acyclic⟩
  refine ⟨here, contents, hlocate, fun cs => ⟨fun hcs => hcs.unique horder, ?_⟩, ?_⟩
  · rintro rfl
    exact horder
  · intro hmaps hconsistent
    obtain ⟨shape, hshaped⟩ := hconsistent.exists_shape
    -- There is a file, and it is a mapping, so the shape has a mapping at the root.
    have hshape : shape [] = true := by
      obtain ⟨c, cs, hc⟩ := List.exists_cons_of_ne_nil (ne_nil_of_postOrder horder)
      have hmem : c ∈ contents := hc ▸ List.mem_cons_self
      rw [← (hshaped c hmem).isMap, hmaps c hmem]
    have hwell := wellKeyed_of_postOrder horder
    have hboth : ∀ c ∈ contents, c.WellKeyed ∧ Node.Shaped shape c :=
      fun c hc => ⟨hwell c hc, hshaped c hc⟩
    have hd : d = Node.stacked contents :=
      hreference.unique (reference_of_postOrder hshape horder hshaped)
    rw [hd]
    exact ⟨rfl, fun q hq v hv => Node.at?_stacked_iff hshape hboth hq hv,
      fun q hq => Node.keysAt_stacked hshape hboth hq⟩

/-! ### Nested includes -/

/-- A file that includes two others, of which the first includes the second as well. All three set
`m`, and two of them `x` in it. -/
def nestedIncludes : FileTree :=
  ⟨[(["w"], .directory),
    (["w", "a.yml"], .file "include: [b.yml, c.yml]\nm: \x7bx: 3\x7d".toUTF8),
    (["w", "b.yml"], .file "include: c.yml\nm: \x7bz: 2, x: 2\x7d\nl: 2".toUTF8),
    (["w", "c.yml"], .file "m: \x7bx: 1, y: 1\x7d\nk: 1".toUTF8)],
    ["w"]⟩

theorem grounded_nestedIncludes : nestedIncludes.Grounded :=
  grounded_of_isName rfl ⟨rfl, by decide, by decide⟩

/-- The own content of `a.yml`. -/
def ownA : Node := .map [(.str "m", .map [(.str "x", .int 3)])]

/-- The own content of `b.yml`. -/
def ownB : Node :=
  .map [(.str "m", .map [(.str "z", .int 2), (.str "x", .int 2)]), (.str "l", .int 2)]

/-- The own content of `c.yml`. -/
def ownC : Node :=
  .map [(.str "m", .map [(.str "x", .int 1), (.str "y", .int 1)]), (.str "k", .int 1)]

/-- `c.yml` comes before `b.yml`, and again before `a.yml`. -/
theorem postOrder_nestedIncludes :
    nestedIncludes.PostOrder ["w", "a.yml"] [ownC, ownB, ownC, ownA] := by
  have hfileA : nestedIncludes.found? ["w", "a.yml"] =
      some (.file "include: [b.yml, c.yml]\nm: \x7bx: 3\x7d".toUTF8) := rfl
  have hfileB : nestedIncludes.found? ["w", "b.yml"] =
      some (.file "include: c.yml\nm: \x7bz: 2, x: 2\x7d\nl: 2".toUTF8) := rfl
  have hfileC : nestedIncludes.found? ["w", "c.yml"] =
      some (.file "m: \x7bx: 1, y: 1\x7d\nk: 1".toUTF8) := rfl
  have hdocumentA : nestedIncludes.documentAt? ["w", "a.yml"] = some (.map
      [(.str "include", .seq [.str "b.yml", .str "c.yml"]),
        (.str "m", .map [(.str "x", .int 3)])]) := by
    rw [documentAt?_of_text hfileA]
    decide +kernel
  have hdocumentB : nestedIncludes.documentAt? ["w", "b.yml"] = some (.map
      [(.str "include", .str "c.yml"),
        (.str "m", .map [(.str "z", .int 2), (.str "x", .int 2)]), (.str "l", .int 2)]) := by
    rw [documentAt?_of_text hfileB]
    decide +kernel
  have hdocumentC : nestedIncludes.documentAt? ["w", "c.yml"] = some ownC := by
    rw [documentAt?_of_text hfileC]
    decide +kernel
  have hA : nestedIncludes.source? ["w", "a.yml"] =
      some ⟨[["w", "b.yml"], ["w", "c.yml"]], ownA⟩ :=
    source?_eq_some_iff.2
      ⟨_, ["b.yml", "c.yml"], hdocumentA, rfl, .cons rfl (.cons rfl .nil), rfl⟩
  have hB : nestedIncludes.source? ["w", "b.yml"] = some ⟨[["w", "c.yml"]], ownB⟩ :=
    source?_eq_some_iff.2 ⟨_, ["c.yml"], hdocumentB, rfl, .cons rfl .nil, rfl⟩
  have hC : nestedIncludes.source? ["w", "c.yml"] = some ⟨[], ownC⟩ :=
    source?_eq_some_iff.2 ⟨_, [], hdocumentC, rfl, .nil, rfl⟩
  -- Children first.
  have horderC : nestedIncludes.PostOrder ["w", "c.yml"] [ownC] :=
    evaluates_iff.2 ⟨_, [], hC, .nil, rfl⟩
  have horderB : nestedIncludes.PostOrder ["w", "b.yml"] [ownC, ownB] :=
    evaluates_iff.2 ⟨_, _, hB, .cons horderC .nil, rfl⟩
  exact evaluates_iff.2 ⟨_, _, hA, .cons horderB (.cons horderC .nil), rfl⟩

/-- Mappings at the root and at `m`. -/
def nestedShape : List Node → Bool
  | [] => true
  | [k] => k.same (.str "m")
  | _ => false

theorem shaped_nestedIncludes : ∀ c ∈ [ownC, ownB, ownC, ownA], Node.Shaped nestedShape c := by
  -- What stands at `m` has scalars in it, and what stands elsewhere is a scalar.
  have hm : ∀ es : Entries, (∀ e ∈ es, e.2.isMap = false) → ∀ k : Node,
      k.same (.str "m") = true → Node.Shaped (fun p => nestedShape (k :: p)) (.map es) := by
    intro es hes k hk
    exact Node.shaped_map hk fun e he l _ => Node.shaped_of_not_isMap (hes e he) rfl
  have hscalar : ∀ (name : String) (i : Int), name ≠ "m" → ∀ k : Node,
      k.same (.str name) = true → Node.Shaped (fun p => nestedShape (k :: p)) (.int i) := by
    intro name i hname k hk
    obtain rfl := Node.same_right_str_iff.1 hk
    refine Node.shaped_of_not_isMap rfl ?_
    show (Node.str name).same (.str "m") = false
    rw [Bool.eq_false_iff, ne_eq, Node.same_right_str_iff, Node.str.injEq]
    exact hname
  have hA : Node.Shaped nestedShape ownA := by
    refine Node.shaped_map rfl ?_
    simp only [List.forall_mem_cons]
    exact ⟨hm _ (by simp [Node.isMap]), List.forall_mem_nil _⟩
  have hB : Node.Shaped nestedShape ownB := by
    refine Node.shaped_map rfl ?_
    simp only [List.forall_mem_cons]
    exact ⟨hm _ (by simp [Node.isMap]), hscalar "l" 2 (by decide), List.forall_mem_nil _⟩
  have hC : Node.Shaped nestedShape ownC := by
    refine Node.shaped_map rfl ?_
    simp only [List.forall_mem_cons]
    exact ⟨hm _ (by simp [Node.isMap]), hscalar "k" 1 (by decide), List.forall_mem_nil _⟩
  simp only [List.forall_mem_cons]
  exact ⟨hC, hB, hC, hA, List.forall_mem_nil _⟩

theorem shapeConsistent_nestedIncludes : ShapeConsistent [ownC, ownB, ownC, ownA] := by
  intro a ha b hb p hp v w hv hw
  rw [shaped_nestedIncludes a ha p hp v hv, shaped_nestedIncludes b hb p hp w hw]

/-- The inner file is read twice, and of what the three files set the last one stands, beneath keys
in the order in which they are met first. -/
theorem resolve_eq_stacked_nestedIncludes :
    ∃ d, nestedIncludes.resolve ⟨"a.yml"⟩ = .ok d ∧
      d = [ownC, ownB, ownC, ownA].foldl Node.merge (.map []) ∧
      d.at? [.str "m", .str "x"] = some (.int 3) ∧ d.at? [.str "l"] = some (.int 2) ∧
      Node.keysAt [] d = [.str "m", .str "k", .str "l"] ∧
      Node.keysAt [.str "m"] d = [.str "x", .str "y", .str "z"] := by
  have hresolve : ∃ d, nestedIncludes.resolve ⟨"a.yml"⟩ = .ok d := by
    refine exists_of_toBool ?_
    decide +kernel
  obtain ⟨d, hresolve⟩ := hresolve
  obtain ⟨here, contents, hlocate, horder, hstacked⟩ :=
    resolve_eq_stacked grounded_nestedIncludes hresolve
  obtain rfl : ["w", "a.yml"] = here := Except.ok.inj hlocate
  obtain rfl : [ownC, ownB, ownC, ownA] = contents := (horder _).1 postOrder_nestedIncludes
  have hmaps : ∀ c ∈ [ownC, ownB, ownC, ownA], c.isMap = true := by
    simp [ownA, ownB, ownC]
  obtain ⟨hd, hlast, hkeys⟩ := hstacked hmaps shapeConsistent_nestedIncludes
  have hwell : ∀ names : List String, ∀ k ∈ names.map Node.str, k.WellKeyed := by
    intro names
    rw [List.forall_mem_map]
    exact fun name _ => .str name
  refine ⟨d, hresolve, hd, ?_, ?_, ?_, ?_⟩
  · exact (hlast _ (hwell ["m", "x"]) _ rfl).2 rfl
  · exact (hlast _ (hwell ["l"]) _ rfl).2 rfl
  · exact hkeys _ (hwell [])
  · exact hkeys _ (hwell ["m"])

end FileTree

end Foundry
