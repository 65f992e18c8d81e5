import Foundry.Proofs.Path.Segments
import Mathlib.Data.List.Basic

/-!
# Prefixes of paths

What a path comes to are its `steps`: its components without the `.` that it may start with. Joining
a relative path adds its steps to those of the base. `stripStart?` compares components, that `.`
included, and leaves a relative path that ends with a segment that counts.

* `steps_eq`, `steps_join`: steps are those of the segments, one path's behind the other's.
* `components_prefix_iff`: components start alike when steps do and the two paths agree on the `.`
  at their start.
* `stripStart?_eq_none`, `exists_stripStart?`: what `stripStart?` does in either case.
* `steps_append`: what is written behind the last segment becomes part of the last step.
-/

namespace Foundry.Path

variable {base p q : Path} {s last : List Char} {ss : List (List Char)} {c : Component}
  {cs : List Component}

/-! ### Steps -/

/-- The components of a path, without a `.` at its start. -/
def steps (p : Path) : List Component :=
  p.components.filter (· ≠ .current)

theorem ofSegment?_eq_none_iff : ofSegment? s = none ↔ isTrivial s = true := by
  unfold ofSegment?
  split_ifs with htrivial hup
  · exact iff_of_true rfl htrivial
  · exact iff_of_false (by simp) htrivial
  · exact iff_of_false (by simp) htrivial

/-- Behind the start of a path a segment stands for no start. -/
theorem eq_of_ofSegment? (h : ofSegment? s = some c) : c = .parent ∨ c = .normal s := by
  unfold ofSegment? at h
  split_ifs at h
  · exact Or.inl (Option.some.inj h).symm
  · exact Or.inr (Option.some.inj h).symm

theorem current_not_mem_filterMap (ss : List (List Char)) :
    .current ∉ ss.filterMap ofSegment? := by
  intro h
  obtain ⟨s, _, hs⟩ := List.mem_filterMap.1 h
  rcases eq_of_ofSegment? hs with hc | hc
  · cases hc
  · cases hc

theorem filter_eq_self_of_not_mem (h : .current ∉ cs) : cs.filter (· ≠ .current) = cs := by
  rw [List.filter_eq_self]
  intro c hc
  rw [decide_eq_true_eq]
  rintro rfl
  exact h hc

/-- Only the start of a path can give a `.`. -/
theorem filter_filterMap_ofSegment? (ss : List (List Char)) :
    (ss.filterMap ofSegment?).filter (· ≠ .current) = ss.filterMap ofSegment? :=
  filter_eq_self_of_not_mem (current_not_mem_filterMap ss)

/-- What starts the steps of a path. -/
def rootSteps (p : Path) : List Component :=
  if p.isAbsolute then [.root] else []

theorem rootSteps_of_relative (h : p.isAbsolute = false) : p.rootSteps = [] := by
  rw [rootSteps, h]
  rfl

/-- **Steps.** Behind the root they are what the segments stand for, the first segment being
like any other. -/
theorem steps_eq (p : Path) :
    p.steps = p.rootSteps ++ (segments p.text.toList).filterMap ofSegment? := by
  rw [steps, components, rootSteps, isAbsolute]
  rcases split_cases p.text.toList with ⟨r, hr, hsplit⟩ | ⟨hr, hsplit⟩ | ⟨r, hr, hsplit⟩ |
    ⟨hhead, hsplit⟩
  · rw [hsplit, hr]
    show [Component.root] ++ ((segments r).filterMap ofSegment?).filter (· ≠ .current) = _
    rw [filter_filterMap_ofSegment?]
    rfl
  · rw [hsplit, hr]
    rfl
  · rw [hsplit, hr]
    show ((segments r).filterMap ofSegment?).filter (· ≠ .current) = _
    rw [filter_filterMap_ofSegment?]
    rfl
  · rw [hsplit, beq_eq_false_iff_ne.2 hhead]
    exact filter_filterMap_ofSegment? _

/-- A `.` at the start is the only component that is no step. -/
theorem components_cases (p : Path) :
    (.current ∉ p.components ∧ p.components = p.steps) ∨ p.components = .current :: p.steps := by
  unfold steps components
  obtain ⟨start, ss⟩ := split p.text.toList
  dsimp only
  by_cases hstart : start = some .current
  · right
    rw [hstart]
    show _ = Component.current :: (ss.filterMap ofSegment?).filter (· ≠ .current)
    rw [filter_filterMap_ofSegment?]
    rfl
  · left
    have hnone : .current ∉ start.toList ++ ss.filterMap ofSegment? := by
      rw [List.mem_append, not_or, Option.mem_toList]
      exact ⟨hstart, current_not_mem_filterMap ss⟩
    exact ⟨hnone, (filter_eq_self_of_not_mem hnone).symm⟩

/-- **Joined steps.** A relative path adds its steps to those of the base. -/
theorem steps_join (p : Path) (hq : q.isAbsolute = false) :
    (p.join q).steps = p.steps ++ q.steps := by
  have hjoin := toList_join (p := p) hq
  rw [steps_eq p, steps_eq q, rootSteps_of_relative hq]
  rcases lead_cases p with ⟨hempty, hlead⟩ | ⟨hne, a, hlead, htext⟩
  · rw [hlead, List.nil_append] at hjoin
    rw [eq_of_toList_eq hjoin, steps_eq q, rootSteps_of_relative hq, rootSteps, isAbsolute, hempty]
    rfl
  · -- A separator at the end of the base adds a segment that counts for nothing.
    have hbase : (segments p.text.toList).filterMap ofSegment? =
        (segments a).filterMap ofSegment? := by
      rcases htext with htext | htext
      · rw [htext]
      · rw [htext, segments_append, List.filterMap_append]
        exact List.append_nil _
    have hroot : (p.join q).rootSteps = p.rootSteps := by
      rw [rootSteps, rootSteps, isAbsolute, isAbsolute, hjoin, hlead]
      rcases htext with htext | htext
      · rw [htext] at hne ⊢
        rw [List.append_assoc, List.head?_append_of_ne_nil _ hne]
      · rw [← htext, List.head?_append_of_ne_nil _ hne]
    rw [steps_eq, hroot, hjoin, hlead, hbase, List.append_assoc, List.singleton_append,
      segments_append, List.filterMap_append, List.nil_append, List.append_assoc]

/-! ### Components that start alike -/

/-- Components start alike when steps do and both paths or neither are written with a `.` in front,
unless the first path has no component at all. -/
theorem components_prefix_iff (hbase : base.components ≠ []) :
    base.components <+: p.components ↔
      base.steps <+: p.steps ∧ (.current ∈ base.components ↔ .current ∈ p.components) := by
  rcases components_cases base with ⟨hb, hbeq⟩ | hbeq
  · rcases components_cases p with ⟨hp, hpeq⟩ | hpeq
    · rw [iff_false_intro hb, iff_false_intro hp, hbeq, hpeq]
      simp
    · -- The base has a step, which stands where the other path has the `.`.
      rw [iff_false_intro hb, hpeq]
      refine iff_of_false (fun h => ?_) (by simp)
      obtain ⟨c, cs, hc⟩ := List.exists_cons_of_ne_nil hbase
      rw [hc, List.cons_prefix_cons] at h
      rw [hc, h.1] at hb
      exact hb List.mem_cons_self
  · rcases components_cases p with ⟨hp, hpeq⟩ | hpeq
    · rw [iff_false_intro hp, hbeq]
      refine iff_of_false (fun h => hp ?_) (by simp)
      exact h.subset List.mem_cons_self
    · rw [hbeq, hpeq, List.cons_prefix_cons]
      simp

/-! ### Stripped paths -/

/-- Segments that stand for the components are dropped, if these come first. -/
theorem dropComponents?_cases (cs : List Component) (ss : List (List Char)) :
    (¬ cs <+: ss.filterMap ofSegment? ∧ dropComponents? cs ss = none) ∨
      ∃ rest, rest <:+ ss ∧ ss.filterMap ofSegment? = cs ++ rest.filterMap ofSegment? ∧
        dropComponents? cs ss = some rest := by
  induction cs, ss using dropComponents?.induct with
  | case1 ss =>
    rw [dropComponents?]
    exact Or.inr ⟨ss, List.suffix_rfl, rfl, rfl⟩
  | case2 c cs => exact Or.inl ⟨by simp, rfl⟩
  | case3 c cs s ss hs ih =>
    -- The segment stands for nothing.
    rw [dropComponents?, hs, List.filterMap_cons_none hs]
    rcases ih with hnone | ⟨rest, hsuffix, hrest⟩
    · exact Or.inl hnone
    · exact Or.inr ⟨rest, hsuffix.trans (List.suffix_cons s ss), hrest⟩
  | case4 cs s ss d hs ih =>
    rw [dropComponents?, hs, List.filterMap_cons_some hs, List.cons_prefix_cons]
    dsimp only
    rw [if_pos rfl]
    rcases ih with ⟨hnot, hnone⟩ | ⟨rest, hsuffix, heq, hsome⟩
    · exact Or.inl ⟨fun h => hnot h.2, hnone⟩
    · refine Or.inr ⟨rest, hsuffix.trans (List.suffix_cons s ss), ?_, hsome⟩
      rw [heq, List.cons_append]
  | case5 c cs s ss d hs hne =>
    rw [dropComponents?, hs, List.filterMap_cons_some hs, List.cons_prefix_cons]
    dsimp only
    rw [if_neg hne]
    exact Or.inl ⟨fun h => hne h.1, rfl⟩

theorem slash_not_mem_of_split (p : Path) : ∀ s ∈ (split p.text.toList).2, '/' ∉ s := by
  rcases split_cases p.text.toList with ⟨r, _, hsplit⟩ | ⟨_, hsplit⟩ | ⟨r, _, hsplit⟩ |
    ⟨_, hsplit⟩
  · rw [hsplit]
    exact fun s => slash_not_mem_of_mem_segments
  · rw [hsplit]
    exact List.forall_mem_singleton.2 List.not_mem_nil
  · rw [hsplit, List.forall_mem_cons]
    exact ⟨List.not_mem_nil, fun s => slash_not_mem_of_mem_segments⟩
  · rw [hsplit]
    exact fun s => slash_not_mem_of_mem_segments

/-- **Stripped or not.** A base with components is taken off if the components start with them, and
what is left are segments that stand for the others. -/
theorem stripStart?_cases (hbase : base.components ≠ []) :
    (¬ base.components <+: p.components ∧ stripStart? base p = none) ∨
      ∃ rest : List (List Char), p.components = base.components ++ rest.filterMap ofSegment? ∧
        (∀ s ∈ rest, '/' ∉ s) ∧
        stripStart? base p =
          some ⟨String.ofList (joinSegments (dropTrivialEnd (rest.dropWhile isTrivial)))⟩ := by
  have hslash := slash_not_mem_of_split p
  revert hslash
  unfold stripStart?
  rw [components.eq_def p]
  rcases split p.text.toList with ⟨start, ss⟩
  obtain ⟨c, cs, hc⟩ := List.exists_cons_of_ne_nil hbase
  rw [hc]
  dsimp only
  intro hslash
  cases start with
  | none =>
    rcases dropComponents?_cases (c :: cs) ss with ⟨hnot, hnone⟩ | ⟨rest, hsuffix, heq, hsome⟩
    · exact Or.inl ⟨hnot, by simp only [hnone, Option.map_none]⟩
    · refine Or.inr ⟨rest, heq, fun s hs => hslash s (hsuffix.subset hs), ?_⟩
      simp only [hsome, Option.map_some]
  | some d =>
    -- The start of the path is a component as well.
    show (¬ c :: cs <+: d :: ss.filterMap ofSegment? ∧ _) ∨
      ∃ rest, d :: ss.filterMap ofSegment? = _ ∧ _
    rw [List.cons_prefix_cons]
    by_cases hcd : c = d
    · rcases dropComponents?_cases cs ss with ⟨hnot, hnone⟩ | ⟨rest, hsuffix, heq, hsome⟩
      · exact Or.inl ⟨fun h => hnot h.2, by simp only [if_pos hcd, hnone, Option.map_none]⟩
      · refine Or.inr ⟨rest, ?_, fun s hs => hslash s (hsuffix.subset hs), ?_⟩
        · rw [heq, hcd, List.cons_append]
        · simp only [if_pos hcd, hsome, Option.map_some]
    · exact Or.inl ⟨fun h => hcd h.1, by simp only [if_neg hcd, Option.map_none]⟩

/-! ### The last segment -/

/-- A relative path with a segment that counts at its end, behind those of other components. -/
structure EndsWith (p : Path) (cs : List Component) (last : List Char) : Prop where
  relative : p.isAbsolute = false
  segments_eq : ∃ front, segments p.text.toList = front ++ [last] ∧
    front.filterMap ofSegment? = cs
  counts : isTrivial last = false

/-- The segments of a relative path start with an empty one only if the path is empty. -/
theorem isAbsolute_of_segments (h : segments p.text.toList = s :: ss) (hs : s ≠ []) :
    p.isAbsolute = false := by
  rw [isAbsolute, beq_eq_false_iff_ne]
  intro hhead
  obtain ⟨r, hr⟩ := List.head?_eq_some_iff.1 hhead
  rw [hr, segments, if_pos rfl, List.cons.injEq] at h
  exact hs h.1.symm

theorem dropTrivialEnd_append {after : List (List Char)} (front : List (List Char))
    (hlast : isTrivial last = false) (hafter : ∀ s ∈ after, isTrivial s = true) :
    dropTrivialEnd (front ++ last :: after) = front ++ [last] := by
  have hdrop : after.reverse.dropWhile isTrivial = [] := by
    rw [List.dropWhile_eq_nil_iff]
    exact fun s hs => hafter s (List.mem_reverse.1 hs)
  rw [dropTrivialEnd, List.reverse_append, List.reverse_cons, List.append_assoc,
    List.dropWhile_append, hdrop, List.singleton_append,
    List.dropWhile_cons_of_neg (by rw [hlast]; decide)]
  simp

theorem filterMap_of_trivial (h : ∀ s ∈ ss, isTrivial s = true) : ss.filterMap ofSegment? = [] := by
  rw [List.filterMap_eq_nil_iff]
  exact fun s hs => ofSegment?_eq_none_iff.2 (h s hs)

/-- The last component has a segment, and those behind it count for nothing. -/
theorem exists_last_of_filterMap (h : ss.filterMap ofSegment? = cs ++ [c]) :
    ∃ front last after, ss = front ++ last :: after ∧ (∀ s ∈ after, isTrivial s = true) ∧
      front.filterMap ofSegment? = cs ∧ ofSegment? last = some c := by
  cases hdrop : ss.reverse.dropWhile isTrivial with
  | nil =>
    rw [List.dropWhile_eq_nil_iff] at hdrop
    rw [filterMap_of_trivial fun s hs => hdrop s (List.mem_reverse.2 hs)] at h
    simp at h
  | cons last before =>
    obtain ⟨hlast, after, hss, hafter⟩ := exists_last_of_dropWhile hdrop
    obtain ⟨d, hd⟩ : ∃ d, ofSegment? last = some d := by
      rw [← Option.ne_none_iff_exists', ne_eq, ofSegment?_eq_none_iff, hlast]
      decide
    refine ⟨before.reverse, last, after, hss, hafter, ?_⟩
    rw [hss, List.filterMap_append, List.filterMap_cons_some hd, filterMap_of_trivial hafter] at h
    obtain ⟨hfront, hdc⟩ := List.append_inj' h rfl
    rw [hd, ← List.singleton_inj.1 hdc]
    exact ⟨hfront, rfl⟩

theorem counts_of_ofSegment? (h : ofSegment? s = some c) : isTrivial s = false := by
  rw [Bool.eq_false_iff, ne_eq, ← ofSegment?_eq_none_iff, h]
  simp

/-- The path of segments is told by them: it is relative if the first one is not empty. -/
theorem endsWith_joinSegments {front : List (List Char)} (hslash : ∀ s ∈ front ++ [last], '/' ∉ s)
    (hhead : (front ++ [last]).head? ≠ some []) (hlast : isTrivial last = false) :
    EndsWith ⟨String.ofList (joinSegments (front ++ [last]))⟩ (front.filterMap ofSegment?)
      last := by
  have hne : front ++ [last] ≠ [] := by simp
  have hsegments : segments (String.ofList (joinSegments (front ++ [last]))).toList =
      front ++ [last] := by
    rw [String.toList_ofList, segments_joinSegments hne hslash]
  refine ⟨?_, ⟨front, hsegments, rfl⟩, hlast⟩
  obtain ⟨s, ss, hs⟩ := List.exists_cons_of_ne_nil hne
  refine isAbsolute_of_segments (hsegments.trans hs) ?_
  rintro rfl
  exact hhead (by rw [hs]; rfl)

theorem head?_segments_ne_nil {cs : List Char} (hne : cs ≠ []) (h : cs.head? ≠ some '/') :
    (segments cs).head? ≠ some [] := by
  obtain ⟨c, cs, rfl⟩ := List.exists_cons_of_ne_nil hne
  obtain ⟨s, ss, hs⟩ := List.exists_cons_of_ne_nil (segments_ne_nil cs)
  have hc : c ≠ '/' := fun hc => h (congrArg some hc)
  rw [segments, if_neg hc, hs]
  simp

theorem head?_append_cons (front after : List (List Char)) :
    (front ++ last :: after).head? = (front ++ [last]).head? := by
  cases front with
  | nil => rfl
  | cons s front => rfl

/-- **A base with components.** What is left behind it is relative, whatever separators and `.`
stand between the two. -/
theorem endsWith_of_rest {rest : List (List Char)} (hslash : ∀ s ∈ rest, '/' ∉ s)
    (h : rest.filterMap ofSegment? = cs ++ [c]) :
    ∃ last, EndsWith ⟨String.ofList (joinSegments (dropTrivialEnd (rest.dropWhile isTrivial)))⟩
      cs last ∧ ofSegment? last = some c := by
  have hdropped : (rest.dropWhile isTrivial).filterMap ofSegment? = cs ++ [c] := by
    rw [← List.takeWhile_append_dropWhile (p := isTrivial) (l := rest), List.filterMap_append,
      filterMap_of_trivial fun s hs => List.mem_takeWhile_imp hs] at h
    exact h
  obtain ⟨front, last, after, hss, hafter, hfront, hlast⟩ := exists_last_of_filterMap hdropped
  have hcounts := counts_of_ofSegment? hlast
  refine ⟨last, ?_, hlast⟩
  rw [hss, dropTrivialEnd_append front hcounts hafter, ← hfront]
  refine endsWith_joinSegments (fun s hs => hslash s ?_) ?_ hcounts
  · refine (List.dropWhile_suffix isTrivial).subset ?_
    rw [hss, List.append_cons]
    exact List.mem_append_left _ hs
  · have hhead := List.head?_dropWhile_not isTrivial rest
    rw [hss, head?_append_cons] at hhead
    intro hnil
    rw [hnil] at hhead
    cases hhead

/-- **A base without components.** A relative path is left as it is, up to its last component. -/
theorem stripStart?_of_nil {front after : List (List Char)} (hbase : base.components = [])
    (hp : p.isAbsolute = false) (hss : segments p.text.toList = front ++ last :: after)
    (hlast : isTrivial last = false) (hafter : ∀ s ∈ after, isTrivial s = true) :
    stripStart? base p = some ⟨String.ofList (joinSegments (front ++ [last]))⟩ := by
  rw [stripStart?, hbase]
  rcases split_cases p.text.toList with ⟨r, hr, _⟩ | ⟨hr, _⟩ | ⟨r, hr, hsplit⟩ | ⟨_, hsplit⟩
  · rw [isAbsolute, hr] at hp
    cases hp
  · -- A single dot has no segment that counts.
    have hmem : last ∈ segments p.text.toList := by
      rw [hss]
      exact List.mem_append_right front List.mem_cons_self
    rw [hr, segments_of_slash_not_mem (by decide), List.mem_singleton] at hmem
    rw [hmem] at hlast
    cases hlast
  · -- The first segment is the dot, which the split has read as the start.
    have hsegments : segments p.text.toList = ['.'] :: segments r := by
      rw [hr]
      simp [segments]
    rw [hsegments] at hss
    rcases front with _ | ⟨s, front⟩
    · rw [List.nil_append, List.cons.injEq] at hss
      rw [← hss.1] at hlast
      cases hlast
    · rw [List.cons_append, List.cons.injEq] at hss
      have htrim := dropTrivialEnd_append ([] :: front) hlast hafter
      rw [List.cons_append] at htrim
      rw [hsplit, hss.2]
      dsimp only
      rw [htrim, ← hss.1, List.cons_append, List.cons_append, joinSegments_cons _ (by simp),
        joinSegments_cons _ (by simp)]
      rfl
  · rw [hsplit, hss]
    dsimp only
    rw [dropTrivialEnd_append front hlast hafter]
    rfl

/-- An empty source root leaves a relative path as it is, up to its spelling. -/
theorem exists_stripStart?_of_nil (hbase : base.components = []) (hp : p.isAbsolute = false)
    (h : p.steps = cs ++ [c]) :
    ∃ rel last, stripStart? base p = some rel ∧ EndsWith rel cs last ∧
      ofSegment? last = some c := by
  rw [steps_eq, rootSteps_of_relative hp, List.nil_append] at h
  obtain ⟨front, last, after, hss, hafter, hfront, hlast⟩ := exists_last_of_filterMap h
  have hcounts := counts_of_ofSegment? hlast
  refine ⟨_, last, stripStart?_of_nil hbase hp hss hcounts hafter, ?_, hlast⟩
  rw [← hfront]
  refine endsWith_joinSegments (fun s hs => ?_) ?_ hcounts
  · have hmem : s ∈ segments p.text.toList := by
      rw [hss, List.append_cons]
      exact List.mem_append_left _ hs
    exact slash_not_mem_of_mem_segments hmem
  · -- The path is not empty, and it does not start with a separator.
    rw [← head?_append_cons front after, ← hss]
    refine head?_segments_ne_nil (fun hempty => ?_) (beq_eq_false_iff_ne.1 hp)
    rw [hempty] at h
    exact absurd h (by simp [segments, ofSegment?, isTrivial])

/-- **What a path comes to behind a base.** The base is taken off when components start alike; what
is left has the remaining steps, and the segment of the last one at its end. -/
theorem exists_stripStart? (hroot : base.isAbsolute = p.isAbsolute)
    (hstart : base.components = [] ∨ (.current ∈ base.components ↔ .current ∈ p.components))
    (h : p.steps = base.steps ++ (cs ++ [c])) :
    ∃ rel last, stripStart? base p = some rel ∧ EndsWith rel cs last ∧
      ofSegment? last = some c := by
  by_cases hbase : base.components = []
  · have hsteps : base.steps = [] := by
      rw [steps, hbase]
      rfl
    have hrelative : base.isAbsolute = false := by
      rw [steps_eq, List.append_eq_nil_iff, rootSteps] at hsteps
      simpa using hsteps.1
    rw [hsteps, List.nil_append] at h
    exact exists_stripStart?_of_nil hbase (hroot ▸ hrelative) h
  · have halike : base.components <+: p.components :=
      (components_prefix_iff hbase).2 ⟨⟨_, h.symm⟩, hstart.resolve_left hbase⟩
    rcases stripStart?_cases (p := p) hbase with ⟨hnone, _⟩ | ⟨rest, hrest, hslash, hstrip⟩
    · exact absurd halike hnone
    · have hsteps : p.steps = base.steps ++ rest.filterMap ofSegment? := by
        rw [steps, hrest, List.filter_append, filter_filterMap_ofSegment?]
        rfl
      rw [hsteps, List.append_cancel_left_eq] at h
      obtain ⟨last, hends, hlast⟩ := endsWith_of_rest hslash h
      exact ⟨_, last, hstrip, hends, hlast⟩

/-- A path whose components do not start alike is kept. -/
theorem stripStart?_eq_none
    (h : ¬ base.steps <+: p.steps ∨
      base.components ≠ [] ∧ ¬ (.current ∈ base.components ↔ .current ∈ p.components)) :
    stripStart? base p = none := by
  have hbase : base.components ≠ [] := by
    rcases h with h | h
    · intro hnil
      rw [steps, hnil] at h
      exact h (List.nil_prefix)
    · exact h.1
  have halike : ¬ base.components <+: p.components := by
    rw [components_prefix_iff hbase, not_and_or]
    exact h.imp_right And.right
  rcases stripStart?_cases (p := p) hbase with ⟨_, hnone⟩ | ⟨rest, hrest, _⟩
  · exact hnone
  · exact absurd ⟨_, hrest.symm⟩ halike

/-! ### Behind the last segment -/

theorem joinSegments_append_right (front : List (List Char)) (last e : List Char) :
    joinSegments (front ++ [last]) ++ e = joinSegments (front ++ [last ++ e]) := by
  rcases eq_or_ne front [] with rfl | hne
  · rw [List.nil_append, List.nil_append, joinSegments_singleton, joinSegments_singleton]
  · rw [joinSegments_append hne (List.cons_ne_nil _ _),
      joinSegments_append hne (List.cons_ne_nil _ _), joinSegments_singleton,
      joinSegments_singleton, List.append_assoc, List.cons_append]

/-- Text behind a name makes it another name, if there is enough of it. -/
theorem ofSegment?_append {e : List Char} (hs : s ≠ []) (he : 2 ≤ e.length) :
    ofSegment? (s ++ e) = some (.normal (s ++ e)) := by
  have hlength : 3 ≤ (s ++ e).length := by
    have hpos : 0 < s.length := List.length_pos_iff.2 hs
    rw [List.length_append]
    omega
  -- The segments that stand for no name are shorter.
  have hne : ∀ t : List Char, t.length < 3 → s ++ e ≠ t := by
    rintro _ ht rfl
    omega
  have htrivial : isTrivial (s ++ e) = false := by
    rw [isTrivial, Bool.or_eq_false_iff, beq_eq_false_iff_ne, beq_eq_false_iff_ne]
    exact ⟨hne [] (by decide), hne ['.'] (by decide)⟩
  rw [ofSegment?, htrivial, if_neg (by decide), if_neg (hne ['.', '.'] (by decide))]

theorem isAbsolute_append (hq : q.text.toList ≠ []) (e : String) :
    (⟨q.text ++ e⟩ : Path).isAbsolute = q.isAbsolute := by
  rw [isAbsolute, isAbsolute, String.toList_append, List.head?_append_of_ne_nil _ hq]

/-- What is written behind a joined path is written behind the path that was joined. -/
theorem join_append (hrelative : q.isAbsolute = false) (hq : q.text.toList ≠ []) (e : String) :
    (⟨(p.join q).text ++ e⟩ : Path) = p.join ⟨q.text ++ e⟩ := by
  apply eq_of_toList_eq
  rw [toList_join ((isAbsolute_append hq e).trans hrelative), String.toList_append,
    String.toList_append, toList_join hrelative, List.append_assoc]

theorem EndsWith.last_ne_nil (h : EndsWith p cs last) : last ≠ [] := by
  rintro rfl
  cases h.counts

theorem EndsWith.toList_ne_nil (h : EndsWith p cs last) : p.text.toList ≠ [] := by
  intro hnil
  obtain ⟨front, hsegments, _⟩ := h.segments_eq
  rw [hnil] at hsegments
  have hmem : last ∈ segments [] := hsegments ▸ List.mem_append_right _ List.mem_cons_self
  exact h.last_ne_nil (List.mem_singleton.1 hmem)

/-- A longer last segment. -/
theorem segments_append_right {front : List (List Char)} {cs e : List Char}
    (h : segments cs = front ++ [last]) (hslash : '/' ∉ e) :
    segments (cs ++ e) = front ++ [last ++ e] := by
  have hold : ∀ s ∈ front ++ [last], '/' ∉ s := h ▸ fun s => slash_not_mem_of_mem_segments
  have hnew : ∀ s ∈ front ++ [last ++ e], '/' ∉ s := by
    rw [List.forall_mem_append, List.forall_mem_singleton] at hold ⊢
    refine ⟨hold.1, ?_⟩
    rw [List.mem_append, not_or]
    exact ⟨hold.2, hslash⟩
  rw [← joinSegments_segments cs, h, joinSegments_append_right,
    segments_joinSegments (by simp) hnew]

/-- **A longer last name.** What is written behind a joined path becomes part of its last step. -/
theorem steps_append (hq : EndsWith q cs last) {e : String} (hslash : '/' ∉ e.toList)
    (he : 2 ≤ e.toList.length) :
    (⟨(p.join q).text ++ e⟩ : Path).steps = p.steps ++ cs ++ [.normal (last ++ e.toList)] := by
  have hne := hq.toList_ne_nil
  have hrelative : (⟨q.text ++ e⟩ : Path).isAbsolute = false :=
    (isAbsolute_append hne e).trans hq.relative
  obtain ⟨front, hsegments, hfront⟩ := hq.segments_eq
  rw [join_append hq.relative hne, steps_join p hrelative, steps_eq ⟨q.text ++ e⟩,
    rootSteps_of_relative hrelative, String.toList_append, segments_append_right hsegments hslash,
    List.filterMap_append, hfront, List.filterMap_cons_some (ofSegment?_append hq.last_ne_nil he),
    List.filterMap_nil, List.nil_append, List.append_assoc]

end Foundry.Path
