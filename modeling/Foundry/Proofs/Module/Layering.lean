import Foundry.Proofs.Descriptor.Directive
import Foundry.Proofs.Module.Generics
import Foundry.Proofs.Module.Relocation
import Foundry.Proofs.Yaml.Associativity

/-!
# Documents that are read again

A document that was resolved and given its generic parameters may be written to a file, anywhere.
That file stands for the document: it has no directive, so it resolves to what it says, and laying
the generic parameters beneath it once more changes nothing, in whatever way the document changed
or replaced them. So a module read from that file is the module of the original one.

* `withGenerics_withGenerics`: layering twice is layering once.
* `resolve_of_cleared`: a mapping without a directive resolves to itself.
* `resolve_and_load_again`: what a file comes to that holds such a document.
-/

namespace Foundry

open FileTree Parameter Yaml

variable {n d e : Node} {es fields : Entries}

/-! ### Layering again -/

theorem wellKeyed_genericFragment : genericFragment.WellKeyed := by
  simp [genericFragment, Generic.all, Generic.declaration, Entries.keysDistinct, Node.same]

theorem wellKeyed_underlayGenerics (hn : n.WellKeyed) : (underlayGenerics n).WellKeyed := by
  cases hmap : n.isMap with
  | false =>
    rw [underlayGenerics_of_not_isMap hmap]
    exact hn
  | true =>
    obtain ⟨fields, rfl⟩ := Node.isMap_iff.1 hmap
    exact wellKeyed_genericFragment.merge (wellKeyed_settledFields hn)

theorem emptyIfNull_emptyIfNull (n : Node) : emptyIfNull (emptyIfNull n) = emptyIfNull n := by
  by_cases hnull : n.isNull = true
  · rw [emptyIfNull, emptyIfNull, if_pos hnull]
    rfl
  · have hself : emptyIfNull n = n := if_neg hnull
    rw [hself, hself]

/-- The parameters beneath a kind are not null any more. -/
theorem emptyIfNull_merge (es : Entries) (n : Node) :
    emptyIfNull ((Node.map es).merge (emptyIfNull n)) = (Node.map es).merge (emptyIfNull n) := by
  cases hmap : (emptyIfNull n).isMap with
  | false => rw [Node.merge_eq_overlay (Or.inr hmap), emptyIfNull_emptyIfNull]
  | true =>
    obtain ⟨fs, hfs⟩ := Node.isMap_iff.1 hmap
    rw [hfs, Node.merge_map]
    rfl

/-- Laying the generic parameters beneath a value twice is laying them once. -/
theorem underlayGenerics_underlayGenerics (hn : n.WellKeyed) :
    underlayGenerics (underlayGenerics n) = underlayGenerics n := by
  cases hmap : n.isMap with
  | false => rw [underlayGenerics_of_not_isMap hmap, underlayGenerics_of_not_isMap hmap]
  | true =>
    obtain ⟨fields, rfl⟩ := Node.isMap_iff.1 hmap
    rw [underlayGenerics_eq_map, underlayGenerics_map, settledFields, Entries.modify_eq_self,
      ← underlayGenerics_eq_map, underlayGenerics_map,
      Node.merge_merge_self wellKeyed_genericFragment (wellKeyed_settledFields hn)]
    intro v hv
    rw [← Entries.field?, field?_layeredFields hn] at hv
    cases hfield : Entries.field? parametersKey fields with
    | none =>
      rw [hfield] at hv
      obtain rfl : Node.map genericEntries = v := Option.some.inj hv
      rfl
    | some w =>
      rw [hfield] at hv
      obtain rfl : (Node.map genericEntries).merge (emptyIfNull w) = v := Option.some.inj hv
      exact emptyIfNull_merge genericEntries w

/-- The entries of a document with the generic parameters beneath each kind. -/
def underlayKinds (es : Entries) : Entries :=
  Kind.all.foldl (fun es k => Entries.modify (.str k.key) underlayGenerics es) es

theorem withGenerics_map (es : Entries) : withGenerics (.map es) = .map (underlayKinds es) := rfl

/-- What a change to one kind keeps, changes to all of them keep. -/
theorem underlayKinds_induction {P : Entries → Prop} (h : P es)
    (hstep : ∀ (fs : Entries) (k : Kind), P fs →
      P (Entries.modify (.str k.key) underlayGenerics fs)) : P (underlayKinds es) :=
  List.foldlRecOn _ _ h fun fs hfs k _ => hstep fs k hfs

/-- No key comes or goes at the top of a document. -/
theorem keys_underlayKinds (es : Entries) : (underlayKinds es).keys = es.keys := by
  refine underlayKinds_induction (P := fun fs => fs.keys = es.keys) rfl fun fs k hfs => ?_
  rw [Entries.keys_modify, hfs]

theorem wellKeyed_withGenerics (hd : d.WellKeyed) : (withGenerics d).WellKeyed := by
  cases hmap : d.isMap with
  | false =>
    rw [withGenerics_of_not_map (Node.not_isMap_iff.1 hmap)]
    exact hd
  | true =>
    obtain ⟨es, rfl⟩ := Node.isMap_iff.1 hmap
    rw [withGenerics_map]
    exact underlayKinds_induction (P := fun fs => (Node.map fs).WellKeyed) hd fun fs k hfs =>
      Entries.wellKeyed_modify hfs fun _ => wellKeyed_underlayGenerics

/-- The kinds of a document are at different keys, so laying beneath them twice is laying once. -/
theorem underlayKinds_underlayKinds (hes : (Node.map es).WellKeyed) :
    underlayKinds (underlayKinds es) = underlayKinds es := by
  -- Every kind has its parameters already, so no change changes anything.
  refine List.foldl_fixed' (fun k => Entries.modify_eq_self fun v hv => ?_) Kind.all
  rw [← Entries.field?, underlayKinds, field?_withGenerics, Option.map_eq_some_iff] at hv
  obtain ⟨w, hw, rfl⟩ := hv
  exact underlayGenerics_underlayGenerics (Entries.wellKeyed_of_find? hes hw)

/-- **Layering twice is layering once.** -/
theorem withGenerics_withGenerics (hd : d.WellKeyed) :
    withGenerics (withGenerics d) = withGenerics d := by
  cases hmap : d.isMap with
  | false =>
    rw [withGenerics_of_not_map (Node.not_isMap_iff.1 hmap),
      withGenerics_of_not_map (Node.not_isMap_iff.1 hmap)]
  | true =>
    obtain ⟨es, rfl⟩ := Node.isMap_iff.1 hmap
    rw [withGenerics_map, withGenerics_map, underlayKinds_underlayKinds hd]

/-! ### Resolving again -/

/-- The generic parameters bring in no directive. -/
theorem Cleared.withGenerics (hd : Cleared d) : Cleared (withGenerics d) := by
  cases hmap : d.isMap with
  | false =>
    rw [withGenerics_of_not_map (Node.not_isMap_iff.1 hmap)]
    exact hd
  | true =>
    obtain ⟨es, rfl⟩ := Node.isMap_iff.1 hmap
    intro fs hfs k hk
    rw [withGenerics_map, Node.map.injEq] at hfs
    rw [← hfs, keys_underlayKinds] at hk
    exact hd es rfl k hk

theorem withoutDirective_of_cleared (h : Cleared (.map es)) :
    withoutDirective (.map es) = .map es := by
  rw [withoutDirective, List.filter_eq_self.2]
  intro e he
  exact bne_iff_ne.2 (h es rfl e.1 (List.mem_map_of_mem he))

/-- Where there is no directive, nothing is included. -/
theorem includedPaths_of_cleared (h : Cleared (.map es)) : includedPaths (.map es) = .ok [] := by
  have hnone : (Node.map es).entries?.bind (·.field? directiveKey) = none :=
    field?_directive_of_cleared h
  rw [includedPaths, hnone]

variable {t u : FileTree} {p q : Path}

/-- A mapping without a directive resolves to itself, wherever its file is. -/
theorem resolve_of_cleared (hread : u.readDocument q = .ok (.map es))
    (hes : (Node.map es).WellKeyed) (h : Cleared (.map es)) : u.resolve q = .ok (.map es) := by
  refine resolveOn_eq_ok_iff.2 ⟨rfl, _, [], [], hread, includedPaths_of_cleared h, .nil, ?_⟩
  rw [overFragments, withoutDirective_of_cleared h, List.foldl_nil, Node.empty_merge hes]

/-- **Read again.** A file that holds a document that was resolved and given its generic parameters
resolves to this document, has nothing to be given, and describes the module, or the error, that the
original file describes. -/
theorem resolve_and_load_again {text : String} (registry : Registry) (hd : t.resolve p = .ok d)
    (hmap : d.isMap = true) (hread : u.read q = .ok text)
    (hparse : Node.ofText? text = some (withGenerics d)) :
    u.resolve q = .ok (withGenerics d) ∧
      (u.resolve q).map withGenerics = .ok (withGenerics d) ∧
      Module.load u registry q = Module.retold q (Module.load t registry p) := by
  have hwell := wellKeyed_of_resolve hd
  have hcleared := (cleared_of_resolve hd).withGenerics
  have hdocument := readDocument_eq_ok_iff_ofText?.2 ⟨text, hread, hparse⟩
  have hagain := withGenerics_withGenerics hwell
  have hresolve : u.resolve q = .ok (withGenerics d) := by
    have hlayered := wellKeyed_withGenerics hwell
    obtain ⟨es, rfl⟩ := Node.isMap_iff.1 hmap
    exact resolve_of_cleared hdocument hlayered hcleared
  refine ⟨hresolve, ?_, ?_⟩
  · rw [hresolve, Except.map, hagain]
  · have hload : Module.load t registry p = Module.ofDocument registry p (withGenerics d) := by
      rw [Module.load, hd]
      rfl
    have hload' : Module.load u registry q =
        Module.ofDocument registry q (withGenerics (withGenerics d)) := by
      rw [Module.load, hresolve]
      rfl
    rw [hload, hload', hagain]
    exact Module.ofDocument_retold q registry _

/-- A plugin that overrides one of the generic parameters and takes back the others. -/
def overriding : Node :=
  .map [(.str "plugin", .map [(.str "parameters", .map
    [(.str "debug", .map [(.str "description", .str "x")]), (.str "trace", .null),
     (.str "log-target", .null), (.str "log-level", .null), (.str "log-file", .null)])])]

/-- The text of this plugin with the generic parameters beneath it. -/
def overridingText : String :=
  "plugin:\n parameters:\n  debug:\n   type: boolean\n   default: false\n" ++
    "   description: x\n   advanced: true\n" ++
    "  trace:\n  log-target:\n  log-level:\n  log-file:"

/-- The plugin in a fragment, and the text in a directory. -/
def rewritten : FileTree :=
  ⟨[(["w"], .directory), (["w", "d"], .directory),
    (["w", "a.yml"], .file "include: b.yml".toUTF8),
    (["w", "b.yml"], .file ("plugin:\n parameters:\n  debug:\n   description: x\n" ++
      "  trace:\n  log-target:\n  log-level:\n  log-file:").toUTF8),
    (["w", "d", "out.yml"], .file overridingText.toUTF8)], ["w"]⟩

/-- The file in the directory stands for the plugin. -/
theorem resolve_and_load_again_rewritten :
    rewritten.resolve ⟨"a.yml"⟩ = .ok overriding ∧ withGenerics overriding ≠ overriding ∧
      rewritten.resolve ⟨"d/out.yml"⟩ = .ok (withGenerics overriding) ∧
      Module.load rewritten Registry.builtin ⟨"d/out.yml"⟩ =
        Module.retold ⟨"d/out.yml"⟩ (Module.load rewritten Registry.builtin ⟨"a.yml"⟩) := by
  have hresolve : rewritten.resolve ⟨"a.yml"⟩ = .ok overriding := by decide +kernel
  have hread : rewritten.read ⟨"d/out.yml"⟩ = .ok overridingText := by
    have hlocate : rewritten.locate ⟨"d/out.yml"⟩ = .ok ["w", "d", "out.yml"] := rfl
    exact read_of_text hlocate rfl
  have hparse : Node.ofText? overridingText = some (withGenerics overriding) := by
    decide +kernel
  obtain ⟨hagain, _, hload⟩ :=
    resolve_and_load_again Registry.builtin hresolve rfl hread hparse
  exact ⟨hresolve, by decide +kernel, hagain, hload⟩

end Foundry
