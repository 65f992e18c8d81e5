import Foundry.Path
import Mathlib.Data.List.TakeWhile

/-!
# Segments of joined paths

Splitting at separators undoes `joinSegments` and goes through an appended text
(`segments_joinSegments`, `segments_append`). What `join` writes in front of a relative path is the
`lead` of the base.

* `exists_continues`: a path is the lead of its directory and a rest with one segment that counts,
  so a path that is joined to the directory takes the place of that segment.
-/

namespace Foundry.Path

/-! ### Splitting -/

/-- Splitting goes through an appended text when a separator stands between. -/
theorem segments_append (a b : List Char) :
    segments (a ++ '/' :: b) = segments a ++ segments b := by
  induction a with
  | nil => simp [segments]
  | cons c a ih =>
    rw [List.cons_append, segments, segments]
    split
    · rw [ih, List.cons_append]
    · obtain ⟨s, ss, hs⟩ := List.exists_cons_of_ne_nil (segments_ne_nil a)
      rw [ih, hs]
      rfl

theorem slash_not_mem_of_mem_segments {cs s : List Char} (h : s ∈ segments cs) : '/' ∉ s := by
  induction cs generalizing s with
  | nil =>
    rw [segments, List.mem_singleton] at h
    rw [h]
    exact List.not_mem_nil
  | cons c cs ih =>
    obtain ⟨t, ts, ht⟩ := List.exists_cons_of_ne_nil (segments_ne_nil cs)
    rw [ht] at ih
    rw [segments, ht] at h
    split at h
    · rcases List.mem_cons.1 h with rfl | h
      · exact List.not_mem_nil
      · exact ih h
    · rename_i hc
      rcases List.mem_cons.1 h with rfl | h
      · rw [List.mem_cons, not_or]
        exact ⟨Ne.symm hc, ih List.mem_cons_self⟩
      · exact ih (List.mem_cons_of_mem _ h)

theorem segments_of_slash_not_mem {s : List Char} (h : '/' ∉ s) : segments s = [s] := by
  induction s with
  | nil => rfl
  | cons c s ih =>
    rw [List.mem_cons, not_or] at h
    rw [segments, if_neg (Ne.symm h.1), ih h.2]

theorem joinSegments_singleton (s : List Char) : joinSegments [s] = s := by
  simp [joinSegments, List.intercalate]

theorem joinSegments_cons {ss : List (List Char)} (s : List Char) (h : ss ≠ []) :
    joinSegments (s :: ss) = s ++ '/' :: joinSegments ss := by
  obtain ⟨t, ts, rfl⟩ := List.exists_cons_of_ne_nil h
  simp [joinSegments, List.intercalate]

/-- Joining goes on across a list of segments with a slash in between. -/
theorem joinSegments_append {ss ts : List (List Char)} (hs : ss ≠ []) (ht : ts ≠ []) :
    joinSegments (ss ++ ts) = joinSegments ss ++ '/' :: joinSegments ts := by
  induction ss with
  | nil => exact absurd rfl hs
  | cons s ss ih =>
    rcases eq_or_ne ss [] with rfl | hne
    · rw [List.singleton_append, joinSegments_cons s ht, joinSegments_singleton]
    · have happ : ss ++ ts ≠ [] := by simp [hne]
      rw [List.cons_append, joinSegments_cons s happ, ih hne, joinSegments_cons s hne,
        List.append_assoc, List.cons_append]

/-- **Splitting what was joined.** Segments without a slash come back. -/
theorem segments_joinSegments {ss : List (List Char)} (hne : ss ≠ []) (h : ∀ s ∈ ss, '/' ∉ s) :
    segments (joinSegments ss) = ss := by
  induction ss with
  | nil => exact absurd rfl hne
  | cons s ss ih =>
    rw [List.forall_mem_cons] at h
    rcases eq_or_ne ss [] with rfl | hss
    · rw [joinSegments_singleton, segments_of_slash_not_mem h.1]
    · rw [joinSegments_cons s hss, segments_append, segments_of_slash_not_mem h.1, ih hss h.2,
        List.singleton_append]

/-! ### Joining -/

theorem eq_of_toList_eq {p q : Path} (h : p.text.toList = q.text.toList) : p = q := by
  rw [String.toList_inj] at h
  exact congrArg Path.mk h

/-- What stands in front of a relative path when it is read from within another path. -/
def lead (p : Path) : List Char :=
  if p.text.toList = [] then []
  else if p.text.toList.getLast? = some '/' then p.text.toList
  else p.text.toList ++ ['/']

/-- A relative path is put behind the lead of the other one. -/
theorem toList_join {p e : Path} (he : e.isAbsolute = false) :
    (p.join e).text.toList = p.lead ++ e.text.toList := by
  unfold join lead
  by_cases hp : p.text.toList = []
  · simp [hp]
  · by_cases hlast : p.text.toList.getLast? = some '/'
    · simp [he, hp, hlast, String.toList_append]
    · simp [he, hp, hlast, String.toList_append]

/-- The lead is the path up to a separator, which is added if there is none. -/
theorem lead_cases (p : Path) :
    (p.text.toList = [] ∧ p.lead = []) ∨
      p.text.toList ≠ [] ∧ ∃ a, p.lead = a ++ ['/'] ∧
        (p.text.toList = a ∨ p.text.toList = a ++ ['/']) := by
  unfold lead
  split_ifs with hempty hlast
  · exact Or.inl ⟨hempty, rfl⟩
  · obtain ⟨a, ha⟩ := List.getLast?_eq_some_iff.1 hlast
    exact Or.inr ⟨hempty, a, ha, Or.inr ha⟩
  · exact Or.inr ⟨hempty, p.text.toList, rfl, Or.inl rfl⟩

theorem lead_eq_nil_or (p : Path) : p.lead = [] ∨ ∃ a, p.lead = a ++ ['/'] := by
  rcases lead_cases p with ⟨_, hlead⟩ | ⟨_, a, hlead, _⟩
  · exact Or.inl hlead
  · exact Or.inr ⟨a, hlead⟩

/-! ### The parent -/

/-- The ways in which a path starts. -/
theorem split_cases (cs : List Char) :
    (∃ r, cs = '/' :: r ∧ split cs = (some .root, segments r)) ∨
    (cs = ['.'] ∧ split cs = (some .current, [[]])) ∨
    (∃ r, cs = '.' :: '/' :: r ∧ split cs = (some .current, [] :: segments r)) ∨
    (cs.head? ≠ some '/' ∧ split cs = (none, segments cs)) := by
  unfold split
  split
  · rename_i r
    exact Or.inl ⟨r, rfl, rfl⟩
  · rename_i r
    rcases r with _ | ⟨c, r⟩
    · exact Or.inr (Or.inl ⟨rfl, rfl⟩)
    · by_cases hc : c = '/'
      · subst hc
        exact Or.inr (Or.inr (Or.inl ⟨r, rfl, by simp [segments]⟩))
      · exact Or.inr (Or.inr (Or.inr ⟨by simp, by simp [hc]⟩))
  · rename_i hroot _
    refine Or.inr (Or.inr (Or.inr ⟨fun h => ?_, rfl⟩))
    obtain ⟨r, rfl⟩ := List.head?_eq_some_iff.1 h
    exact hroot r rfl

/-- The segments of a list in front of its last one that counts and those behind it. -/
theorem exists_last_of_dropWhile {ss before : List (List Char)} {last : List Char}
    (h : ss.reverse.dropWhile isTrivial = last :: before) :
    isTrivial last = false ∧
      ∃ after, ss = before.reverse ++ last :: after ∧ ∀ s ∈ after, isTrivial s = true := by
  have hall := List.takeWhile_append_dropWhile (p := isTrivial) (l := ss.reverse)
  rw [h] at hall
  refine ⟨?_, (ss.reverse.takeWhile isTrivial).reverse, ?_, fun s hs => ?_⟩
  · have hhead := List.head?_dropWhile_not isTrivial ss.reverse
    rw [h] at hhead
    simpa using hhead
  · have := congrArg List.reverse hall
    rw [List.reverse_reverse, List.reverse_append, List.reverse_cons, List.append_assoc] at this
    exact this.symm
  · rw [List.mem_reverse] at hs
    exact List.mem_takeWhile_imp hs

theorem getLast?_joinSegments_append {s : List Char} (ss : List (List Char)) (hs : s ≠ []) :
    (joinSegments (ss ++ [s])).getLast? = s.getLast? := by
  rcases eq_or_ne ss [] with rfl | hne
  · rw [List.nil_append, joinSegments_singleton]
  · obtain ⟨c, hc⟩ := List.getLast?_isSome.2 hs |> Option.isSome_iff_exists.1
    rw [joinSegments_append hne (List.cons_ne_nil _ _), joinSegments_singleton,
      List.getLast?_append, List.getLast?_cons, hc]
    rfl

theorem getLast?_ne_slash {s : List Char} (h : '/' ∉ s) : s.getLast? ≠ some '/' := by
  intro hlast
  exact h (List.mem_of_getLast? hlast)

/-- The lead of a path that ends with a segment that counts. -/
theorem lead_of_append {p : Path} {start last : List Char} {ss : List (List Char)}
    (hp : p.text.toList = start ++ joinSegments (ss ++ [last])) (hlast : last ≠ [])
    (hslash : '/' ∉ last) : p.lead = start ++ joinSegments (ss ++ [last]) ++ ['/'] := by
  obtain ⟨c, hc⟩ := List.getLast?_isSome.2 hlast |> Option.isSome_iff_exists.1
  have hend : p.text.toList.getLast? = some c := by
    rw [hp, List.getLast?_append, getLast?_joinSegments_append ss hlast, hc]
    rfl
  have hne : p.text.toList ≠ [] := by
    intro h
    rw [h] at hend
    cases hend
  have hc' : some c ≠ some '/' := hc ▸ getLast?_ne_slash hslash
  rw [lead, if_neg hne, hend, if_neg hc', hp]

/-- How a path with a segment that counts is split. -/
theorem exists_split {cs : List Char} (h : ∃ s ∈ segments cs, isTrivial s = false) :
    ∃ start ss, split cs = (start, ss) ∧ cs = startText start ++ joinSegments ss ∧
      (∀ s ∈ ss, '/' ∉ s) ∧ (∃ s ∈ ss, isTrivial s = false) ∧
      (start = some .root ∨ (start = some .current ∧ ∃ r, ss = [] :: segments r) ∨
        (start = none ∧ cs.head? ≠ some '/')) := by
  obtain ⟨s, hs, hcount⟩ := h
  rcases split_cases cs with ⟨r, rfl, hr⟩ | ⟨rfl, hr⟩ | ⟨r, rfl, hr⟩ | ⟨hhead, hr⟩
  -- A path from the root: the empty segment in front of it does not count.
  · refine ⟨_, _, hr, ?_, fun s hs => slash_not_mem_of_mem_segments hs, ?_, Or.inl rfl⟩
    · rw [joinSegments_segments]
      rfl
    · simp only [segments, if_true, List.mem_cons] at hs
      rcases hs with rfl | hs
      · cases hcount
      · exact ⟨s, hs, hcount⟩
  -- A single dot has no segment that counts.
  · simp only [segments, Char.reduceEq, if_false, List.mem_singleton] at hs
    rw [hs] at hcount
    cases hcount
  -- A path that starts with a dot: the dot is no segment of the split, but the empty one is.
  · refine ⟨_, _, hr, ?_, ?_, ?_, Or.inr (Or.inl ⟨rfl, r, rfl⟩)⟩
    · rw [joinSegments_cons _ (segments_ne_nil r), joinSegments_segments]
      rfl
    · rw [List.forall_mem_cons]
      exact ⟨List.not_mem_nil, fun s hs => slash_not_mem_of_mem_segments hs⟩
    · have hseg : segments ('.' :: '/' :: r) = ['.'] :: segments r := by simp [segments]
      rw [hseg, List.mem_cons] at hs
      rcases hs with rfl | hs
      · cases hcount
      · exact ⟨s, List.mem_cons_of_mem _ hs, hcount⟩
  · refine ⟨_, _, hr, ?_, fun s hs => slash_not_mem_of_mem_segments hs, ⟨s, hs, hcount⟩,
      Or.inr (Or.inr ⟨rfl, hhead⟩)⟩
    rw [joinSegments_segments]
    rfl

/-- The directory of a path is what stands in front of its last segment that counts. -/
theorem toList_directory {p : Path} {start : Option Component} {ss before : List (List Char)}
    {last : List Char} (hsplit : split p.text.toList = (start, ss))
    (hdrop : ss.reverse.dropWhile isTrivial = last :: before) :
    p.directory.text.toList =
      startText start ++ joinSegments (before.dropWhile isTrivial).reverse := by
  simp [directory, parent?, hsplit, hdrop]

/-- How a path goes on behind the lead of its directory: with one segment that counts, among others
that do not. -/
structure Continues (p : Path) (rest : List Char) (before : List (List Char)) (last : List Char)
    (after : List (List Char)) : Prop where
  toList_eq : p.text.toList = p.directory.lead ++ rest
  segments_eq : segments rest = before ++ last :: after
  before_trivial : ∀ s ∈ before, isTrivial s = true
  last_counts : isTrivial last = false
  after_trivial : ∀ s ∈ after, isTrivial s = true
  relative : p.directory.lead = [] → p.isAbsolute = false

section Continues

variable {p : Path} {start : Option Component} {ss before after : List (List Char)}
  {last : List Char}

/-- The directory ends with a segment that counts. -/
theorem continues_of_segment {k : List Char}
    (hdir : p.directory.text.toList = startText start ++ joinSegments (ss ++ [k]))
    (htext : p.text.toList = startText start ++ joinSegments (ss ++ k :: before ++ last :: after))
    (hslash : ∀ s ∈ ss ++ k :: before ++ last :: after, '/' ∉ s) (hk : isTrivial k = false)
    (hbefore : ∀ s ∈ before, isTrivial s = true) (hlast : isTrivial last = false)
    (hafter : ∀ s ∈ after, isTrivial s = true) :
    p.Continues (joinSegments (before ++ last :: after)) before last after := by
  have hk0 : k ≠ [] := by
    rintro rfl
    cases hk
  have hlead := lead_of_append hdir hk0 (hslash k (by simp))
  refine ⟨?_, ?_, hbefore, hlast, hafter, ?_⟩
  · have hsplit : ss ++ k :: before ++ last :: after =
        (ss ++ [k]) ++ (before ++ last :: after) := by simp
    rw [hlead, htext, hsplit, joinSegments_append (by simp) (by simp)]
    simp
  · refine segments_joinSegments (by simp) fun s hs => hslash s ?_
    rcases List.mem_append.1 hs with hs | hs
    · exact List.mem_append_left _ (List.mem_append_right _ (List.mem_cons_of_mem _ hs))
    · exact List.mem_append_right _ hs
  · rw [hlead]
    intro hnil
    simp at hnil

/-- The directory is the root, or the current directory under one of its two spellings. -/
theorem continues_of_start (hdir : p.directory.text.toList = startText start)
    (htext : p.text.toList = startText start ++ joinSegments (before ++ last :: after))
    (hslash : ∀ s ∈ before ++ last :: after, '/' ∉ s)
    (hbefore : ∀ s ∈ before, isTrivial s = true) (hlast : isTrivial last = false)
    (hafter : ∀ s ∈ after, isTrivial s = true)
    (hstart : start = some .root ∨
      (start = some .current ∧ ∃ r, before ++ last :: after = [] :: segments r) ∨
      (start = none ∧ p.text.toList.head? ≠ some '/')) :
    ∃ rest before, p.Continues rest before last after := by
  have hsegments : segments (joinSegments (before ++ last :: after)) = before ++ last :: after :=
    segments_joinSegments (by simp) hslash
  rcases hstart with rfl | ⟨rfl, r, hr⟩ | ⟨rfl, hhead⟩
  · have hlead : p.directory.lead = ['/'] := by
      rw [lead, hdir]
      rfl
    refine ⟨_, before, ?_, hsegments, hbefore, hlast, hafter, ?_⟩
    · rw [hlead]
      exact htext
    · rw [hlead]
      intro hnil
      cases hnil
  · have hlead : p.directory.lead = ['.', '/'] := by
      rw [lead, hdir]
      rfl
    -- The separator behind the dot belongs to the lead, so the empty segment does not come again.
    cases before with
    | nil =>
      rw [List.nil_append, List.cons.injEq] at hr
      rw [hr.1] at hlast
      cases hlast
    | cons b before =>
      rw [List.cons_append, List.cons.injEq] at hr
      rw [List.forall_mem_cons] at hbefore
      refine ⟨r, before, ?_, hr.2.symm, hbefore.2, hlast, hafter, ?_⟩
      · rw [hlead, htext, List.cons_append, hr.1, hr.2, joinSegments_cons _ (segments_ne_nil r),
          joinSegments_segments]
        rfl
      · rw [hlead]
        intro hnil
        cases hnil
  · have hlead : p.directory.lead = [] := by
      rw [lead, hdir]
      rfl
    refine ⟨_, before, ?_, hsegments, hbefore, hlast, hafter, ?_⟩
    · rw [hlead]
      exact htext
    · intro _
      rw [isAbsolute, beq_eq_false_iff_ne]
      exact hhead

end Continues

/-- **Where a joined path goes.** A path with a segment that counts is the lead of its directory and
a rest in which one segment counts. -/
theorem exists_continues (p : Path) (h : ∃ s ∈ segments p.text.toList, isTrivial s = false) :
    ∃ rest before last after, p.Continues rest before last after := by
  obtain ⟨start, ss, hsplit, htext, hslash, ⟨s, hs, hcount⟩, hstart⟩ := exists_split h
  have hne : ss.reverse.dropWhile isTrivial ≠ [] := by
    rw [ne_eq, List.dropWhile_eq_nil_iff]
    intro hall
    rw [hall s (List.mem_reverse.2 hs)] at hcount
    cases hcount
  obtain ⟨last, front, hdrop⟩ := List.exists_cons_of_ne_nil hne
  obtain ⟨hlast, after, hss, hafter⟩ := exists_last_of_dropWhile hdrop
  have hdir := toList_directory hsplit hdrop
  cases hkept : front.dropWhile isTrivial with
  | cons k ks =>
    have hkept' : front.reverse.reverse.dropWhile isTrivial = k :: ks := by
      rw [List.reverse_reverse]
      exact hkept
    obtain ⟨hk, before, hfront, hbefore⟩ := exists_last_of_dropWhile hkept'
    rw [hkept, List.reverse_cons] at hdir
    rw [hfront] at hss
    rw [hss] at htext hslash
    exact ⟨_, before, last, after,
      continues_of_segment hdir htext hslash hk hbefore hlast hafter⟩
  | nil =>
    have hfront : ∀ s ∈ front.reverse, isTrivial s = true := by
      rw [List.dropWhile_eq_nil_iff] at hkept
      exact fun s hs => hkept s (List.mem_reverse.1 hs)
    have hdir' : p.directory.text.toList = startText start := by
      rw [hdir, hkept]
      exact List.append_nil _
    rw [hss] at htext hslash hstart
    obtain ⟨rest, before, hcontinues⟩ :=
      continues_of_start hdir' htext hslash hfront hlast hafter hstart
    exact ⟨rest, before, last, after, hcontinues⟩

end Foundry.Path
