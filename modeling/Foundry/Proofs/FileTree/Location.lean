import Foundry.Descriptor.Resolve
import Foundry.Proofs.Path.Segments
import Foundry.Proofs.Result

/-!
# Locations of paths

A path is an instruction to walk from the root or the working directory; a location is where the
walk ends. A tree is `Grounded` when its working directory, if there is one, is a place where a walk
can start: everything above it is a directory, under names that a path can spell.

* `stands_of_locate`: in a grounded tree every walk ends at such a place.
* `same_pathOf_iff`: there the canonical path tells a location apart.
* `walk_join`: a path that is joined to the directory of a file leads to where it leads if that
  directory is the working directory, however the path to the file was spelled; and so it is looked
  up (`locate_join`), unless the joined path is longer than the operating system takes.
-/

namespace Foundry

namespace Path

/-- A segment that names an entry of a directory. -/
structure IsName (s : List Char) : Prop where
  counts : isTrivial s = false
  ne_up : s ≠ ['.', '.']
  slash_not_mem : '/' ∉ s

theorem ofSegment?_of_isName {s : List Char} (h : IsName s) : ofSegment? s = some (.normal s) := by
  rw [ofSegment?, h.counts, if_neg (by decide), if_neg h.ne_up]

end Path

namespace FileTree

open Foundry.Path

/-- A location on the ground: it is named by names, and everything above it is a directory. -/
structure Stands (t : FileTree) (here : Location) : Prop where
  isName : ∀ name ∈ here, IsName name.toList
  above : ∀ n < here.length, t.isDirectory (here.take n) = true

/-- If there is a working directory, it stands on the ground. -/
def Grounded (t : FileTree) : Prop :=
  t.isDirectory t.workingDirectory = true → t.Stands t.workingDirectory

/-- The tree as seen from another directory. -/
def within (t : FileTree) (directory : Location) : FileTree :=
  { t with workingDirectory := directory }

variable {t : FileTree} {here there : Location}

theorem isDirectory_nil (t : FileTree) : t.isDirectory [] = true := rfl

theorem isDirectory_iff : t.isDirectory here = true ↔ t.found? here = some .directory := by
  unfold isDirectory
  split <;> simp_all

theorem not_isDirectory_of_file {content : ByteArray} (h : t.found? here = some (.file content)) :
    t.isDirectory here = false := by
  rw [Bool.eq_false_iff, ne_eq, isDirectory_iff, h]
  intro hdir
  cases hdir

/-! ### Steps -/

/-- The ways in which a step ends. -/
theorem step_cases {s : List Char} (h : t.step here s = .ok there) :
    t.isDirectory here = true ∧
      ((isTrivial s = true ∧ there = here) ∨
        (isTrivial s = false ∧ s = ['.', '.'] ∧ there = here.dropLast) ∨
        (isTrivial s = false ∧ s ≠ ['.', '.'] ∧ there = here ++ [String.ofList s])) := by
  unfold step at h
  cases hdir : t.isDirectory here with
  | false =>
    rw [hdir, Bool.not_false, if_pos rfl] at h
    cases h
  | true =>
    refine ⟨rfl, ?_⟩
    rw [hdir, Bool.not_true, if_neg (by decide)] at h
    cases htrivial : isTrivial s with
    | true =>
      rw [htrivial, if_pos rfl, Except.ok.injEq] at h
      exact Or.inl ⟨rfl, h.symm⟩
    | false =>
      rw [htrivial, if_neg (by decide)] at h
      by_cases hup : s = ['.', '.']
      · rw [if_pos hup, Except.ok.injEq] at h
        exact Or.inr (Or.inl ⟨rfl, hup, h.symm⟩)
      · rw [if_neg hup] at h
        dsimp only at h
        split_ifs at h
        rw [Except.ok.injEq] at h
        exact Or.inr (Or.inr ⟨rfl, hup, h.symm⟩)

theorem Stands.dropLast (h : t.Stands here) : t.Stands here.dropLast where
  isName name hname := h.isName name (List.dropLast_subset here hname)
  above n hn := by
    rw [List.length_dropLast] at hn
    have := h.above n (by omega)
    -- The places above are among those above the whole location.
    rw [List.dropLast_eq_take, List.take_take, Nat.min_eq_left (by omega)]
    exact this

/-- A location on the ground stands in a directory. -/
theorem Stands.isDirectory_dropLast (h : t.Stands here) : t.isDirectory here.dropLast = true := by
  rcases eq_or_ne here [] with rfl | hne
  · exact isDirectory_nil t
  · have hpos : 0 < here.length := List.length_pos_iff.2 hne
    rw [List.dropLast_eq_take]
    exact h.above _ (by omega)

theorem Stands.append (h : t.Stands here) (hdir : t.isDirectory here = true) {name : String}
    (hname : IsName name.toList) : t.Stands (here ++ [name]) where
  isName n hn := by
    rcases List.mem_append.1 hn with hn | hn
    · exact h.isName n hn
    · rw [List.mem_singleton] at hn
      rw [hn]
      exact hname
  above n hn := by
    rw [List.length_append, List.length_singleton] at hn
    rw [List.take_append_of_le_length (by omega)]
    rcases Nat.lt_or_ge n here.length with hlt | hge
    · exact h.above n hlt
    · rw [List.take_of_length_le hge]
      exact hdir

theorem stands_of_step {s : List Char} (hslash : '/' ∉ s) (hhere : t.Stands here)
    (h : t.step here s = .ok there) : t.Stands there := by
  obtain ⟨hdir, ⟨_, rfl⟩ | ⟨_, _, rfl⟩ | ⟨hcounts, hup, rfl⟩⟩ := step_cases h
  · exact hhere
  · exact hhere.dropLast
  · refine hhere.append hdir ?_
    rw [String.toList_ofList]
    exact ⟨hcounts, hup, hslash⟩

/-! ### Walks -/

/-- A walk from the ground ends on the ground. -/
theorem stands_of_foldlM {ss : List (List Char)} (hslash : ∀ s ∈ ss, '/' ∉ s)
    (hhere : t.Stands here) (h : ss.foldlM t.step here = .ok there) : t.Stands there := by
  induction ss generalizing here with
  | nil =>
    rw [List.foldlM_nil] at h
    rw [← Except.ok.inj h]
    exact hhere
  | cons s ss ih =>
    rw [List.forall_mem_cons] at hslash
    rw [List.foldlM_cons, bind_eq_ok_iff] at h
    obtain ⟨next, hstep, h⟩ := h
    exact ih hslash.2 (stands_of_step hslash.1 hhere hstep) h

/-- A walk of segments that do not count goes nowhere. -/
theorem eq_of_foldlM_trivial {ss : List (List Char)} (hss : ∀ s ∈ ss, isTrivial s = true)
    (h : ss.foldlM t.step here = .ok there) : there = here := by
  induction ss generalizing here with
  | nil =>
    rw [List.foldlM_nil] at h
    exact (Except.ok.inj h).symm
  | cons s ss ih =>
    rw [List.forall_mem_cons] at hss
    rw [List.foldlM_cons, bind_eq_ok_iff] at h
    obtain ⟨next, hstep, h⟩ := h
    have hnext : next = here := by
      obtain ⟨_, ⟨_, hn⟩ | ⟨hcounts, _, _⟩ | ⟨hcounts, _, _⟩⟩ := step_cases hstep
      · exact hn
      · rw [hss.1] at hcounts
        cases hcounts
      · rw [hss.1] at hcounts
        cases hcounts
    rw [ih hss.2 h, hnext]

/-- A walk with one segment that counts finds a file in the directory where it starts. -/
theorem dropLast_of_foldlM {before after : List (List Char)} {last : List Char}
    {content : ByteArray} (hstands : t.Stands here) (hbefore : ∀ s ∈ before, isTrivial s = true)
    (hlast : isTrivial last = false) (hafter : ∀ s ∈ after, isTrivial s = true)
    (h : (before ++ last :: after).foldlM t.step here = .ok there)
    (hfile : t.found? there = some (.file content)) : there.dropLast = here := by
  rw [foldlM_append_eq_ok_iff] at h
  obtain ⟨start, hstart, h⟩ := h
  rw [List.foldlM_cons, bind_eq_ok_iff] at h
  obtain ⟨next, hstep, h⟩ := h
  rw [eq_of_foldlM_trivial hbefore hstart] at hstep
  rw [eq_of_foldlM_trivial hafter h] at hfile ⊢
  obtain ⟨_, ⟨htrivial, _⟩ | ⟨_, _, rfl⟩ | ⟨_, _, rfl⟩⟩ := step_cases hstep
  · rw [hlast] at htrivial
    cases htrivial
  · -- A step up ends at a directory.
    have hdir := hstands.isDirectory_dropLast
    rw [not_isDirectory_of_file hfile] at hdir
    cases hdir
  · exact List.dropLast_concat

/-- A path that names something leads where its segments do. -/
theorem walk_eq_ok_iff {p : Path} :
    t.walk p = .ok here ↔
      spelled p = .ok () ∧ (segments p.text.toList).foldlM t.step (t.start p) = .ok here := by
  rw [walk, bind_eq_ok_iff]
  constructor
  · rintro ⟨_, hspelled, h⟩
    exact ⟨hspelled, h⟩
  · rintro ⟨hspelled, h⟩
    exact ⟨(), hspelled, h⟩

theorem spelled_of_nameable {p : Path} (h : nameable p = .ok ()) : spelled p = .ok () := by
  obtain ⟨_, hspelled, _⟩ := bind_eq_ok_iff.1 h
  exact hspelled

/-- A path that can be looked up as it stands leads where its segments do. -/
theorem locate_eq_ok_iff {p : Path} :
    t.locate p = .ok here ↔
      nameable p = .ok () ∧ (segments p.text.toList).foldlM t.step (t.start p) = .ok here := by
  rw [locate, bind_eq_ok_iff]
  constructor
  · rintro ⟨_, hname, h⟩
    exact ⟨hname, (walk_eq_ok_iff.1 h).2⟩
  · rintro ⟨hname, h⟩
    exact ⟨(), hname, walk_eq_ok_iff.2 ⟨spelled_of_nameable hname, h⟩⟩

/-- A text is read from a file, if its bytes are one. -/
theorem read_eq_ok_iff {p : Path} {text : String} :
    t.read p = .ok text ↔
      ∃ here content, t.locate p = .ok here ∧ t.found? here = some (.file content) ∧
        String.fromUTF8? content = some text := by
  rw [read, bind_eq_ok_iff]
  constructor
  · rintro ⟨here, hlocate, h⟩
    split at h
    · rename_i content hfile
      split at h
      · rename_i text' htext
        rw [Except.ok.inj h] at htext
        exact ⟨here, content, hlocate, hfile, htext⟩
      · cases h
    · cases h
  · rintro ⟨here, content, hlocate, hfile, htext⟩
    refine ⟨here, hlocate, ?_⟩
    rw [hfile]
    dsimp only
    rw [htext]

/-- The bytes of a text make up that text. -/
theorem fromUTF8?_toUTF8 (text : String) : String.fromUTF8? text.toUTF8 = some text :=
  dif_pos text.isValidUTF8

theorem read_of_text {p : Path} {text : String} (hlocate : t.locate p = .ok here)
    (hfile : t.found? here = some (.file text.toUTF8)) : t.read p = .ok text :=
  read_eq_ok_iff.2 ⟨here, _, hlocate, hfile, fromUTF8?_toUTF8 text⟩

/-- A walk starts at a directory, since every path has a segment. -/
theorem isDirectory_of_foldlM {cs : List Char}
    (h : (segments cs).foldlM t.step here = .ok there) : t.isDirectory here = true := by
  obtain ⟨s, ss, hs⟩ := List.exists_cons_of_ne_nil (segments_ne_nil cs)
  rw [hs, List.foldlM_cons, bind_eq_ok_iff] at h
  obtain ⟨_, hstep, _⟩ := h
  exact (step_cases hstep).1

/-- In a grounded tree, paths start on the ground. -/
theorem Grounded.stands_start (ht : t.Grounded) {p : Path}
    (h : t.isDirectory (t.start p) = true) : t.Stands (t.start p) := by
  unfold start at h ⊢
  split
  · exact ⟨fun _ hname => absurd hname List.not_mem_nil, fun n hn => absurd hn (Nat.not_lt_zero n)⟩
  · rename_i habs
    rw [if_neg habs] at h
    exact ht h

/-- A working directory right below the root needs nothing but a name. -/
theorem grounded_of_isName {name : String} (hworking : t.workingDirectory = [name])
    (hname : IsName name.toList) : t.Grounded := by
  intro _
  rw [hworking]
  refine ⟨fun other hother => ?_, fun n hn => ?_⟩
  · rw [List.mem_singleton.1 hother]
    exact hname
  · rw [Nat.lt_one_iff.1 hn, List.take_zero]
    exact isDirectory_nil t

/-- **Where walks end.** -/
theorem stands_of_walk (ht : t.Grounded) {p : Path} (h : t.walk p = .ok here) :
    t.Stands here := by
  obtain ⟨_, hwalk⟩ := walk_eq_ok_iff.1 h
  exact stands_of_foldlM (fun _ hs => slash_not_mem_of_mem_segments hs)
    (ht.stands_start (isDirectory_of_foldlM hwalk)) hwalk

/-- **Where paths are looked up.** It is on the ground. -/
theorem stands_of_locate (ht : t.Grounded) {p : Path} (h : t.locate p = .ok here) :
    t.Stands here :=
  stands_of_walk ht (walk_of_locate h)

/-! ### Canonical paths -/

theorem toList_pathOf (here : Location) :
    (pathOf here).text.toList = '/' :: joinSegments (here.map String.toList) := by
  rw [pathOf, String.toList_append, String.toList_intercalate]
  rfl

/-- The components of a canonical path are the root and the names of the location. -/
theorem components_pathOf (h : t.Stands here) :
    (pathOf here).components = .root :: here.map fun name => .normal name.toList := by
  rw [components, toList_pathOf, split]
  rcases eq_or_ne here [] with rfl | hne
  · rfl
  · have hslash : ∀ s ∈ here.map String.toList, '/' ∉ s := by
      intro s hs
      obtain ⟨name, hname, rfl⟩ := List.mem_map.1 hs
      exact (h.isName name hname).slash_not_mem
    have hnames : ∀ name ∈ here,
        ofSegment? name.toList = some (Component.normal name.toList) := by
      intro name hname
      exact ofSegment?_of_isName (h.isName name hname)
    show [Component.root] ++ (segments _).filterMap ofSegment? = _
    rw [segments_joinSegments (by simpa using hne) hslash, List.filterMap_map,
      List.singleton_append, List.cons.injEq]
    refine ⟨rfl, ?_⟩
    rw [← List.filterMap_eq_map]
    exact List.filterMap_congr hnames

/-- **Canonical paths tell places apart.** -/
theorem same_pathOf_iff (hhere : t.Stands here) (hthere : t.Stands there) :
    (pathOf here).same (pathOf there) = true ↔ here = there := by
  rw [same, components_pathOf hhere, components_pathOf hthere, beq_iff_eq, List.cons.injEq]
  constructor
  · rintro ⟨_, h⟩
    refine List.map_injective_iff.2 ?_ h
    intro a b hab
    exact String.toList_inj.1 (Component.normal.inj hab)
  · rintro rfl
    exact ⟨rfl, rfl⟩

/-! ### Joined paths -/

/-- A path can be a name of something if it has a character and none of them is NUL. -/
theorem spelled_eq_ok_iff {p : Path} :
    spelled p = .ok () ↔ '\x00' ∉ p.text.toList ∧ p.text.toList ≠ [] := by
  unfold spelled
  split_ifs with hnul hempty
  · simp_all
  · simp_all
  · simp_all

theorem nameable_eq_ok_iff {p : Path} :
    nameable p = .ok () ↔
      '\x00' ∉ p.text.toList ∧ p.text.toList ≠ [] ∧ p.text.utf8ByteSize ≤ pathLimit := by
  rw [nameable, bind_eq_ok_iff]
  constructor
  · rintro ⟨_, hspelled, hshort⟩
    obtain ⟨hnul, hne⟩ := spelled_eq_ok_iff.1 hspelled
    split_ifs at hshort with hlong
    exact ⟨hnul, hne, Nat.le_of_not_lt hlong⟩
  · rintro ⟨hnul, hne, hshort⟩
    exact ⟨(), spelled_eq_ok_iff.2 ⟨hnul, hne⟩, if_neg (Nat.not_lt.2 hshort)⟩

/-- Behind the lead of a path that is a name, a path is a name if it is one by itself. -/
theorem spelled_of_append {e joined : Path} {before : List Char} (hnul : '\x00' ∉ before)
    (hjoined : joined.text.toList = before ++ e.text.toList) (he : e.text.toList ≠ []) :
    spelled joined = spelled e := by
  have hne : joined.text.toList ≠ [] := by
    rw [hjoined]
    exact List.append_ne_nil_of_right_ne_nil before he
  have hcontains : joined.text.toList.contains '\x00' = e.text.toList.contains '\x00' := by
    rw [hjoined, Bool.eq_iff_iff, List.contains_iff_mem, List.contains_iff_mem, List.mem_append]
    exact ⟨fun h => h.resolve_left hnul, Or.inr⟩
  rw [spelled, spelled, hcontains, if_neg hne, if_neg he]

/-- What is short enough is looked up as it stands. -/
theorem locate_of_le {p : Path} (h : p.text.utf8ByteSize ≤ pathLimit) : t.locate p = t.walk p := by
  rw [locate, nameable, if_neg (Nat.not_lt.2 h), walk]
  cases spelled p <;> rfl

theorem walk_of_isAbsolute {p : Path} (h : p.isAbsolute = true) (directory : Location) :
    (t.within directory).walk p = t.walk p := by
  have hstart : (t.within directory).start p = t.start p := by
    rw [start, start, if_pos h, if_pos h]
  rw [walk, walk, hstart]
  rfl

theorem start_of_not_isAbsolute {p : Path} (h : p.isAbsolute = false) :
    t.start p = t.workingDirectory := by
  rw [start, h]
  rfl

theorem isAbsolute_eq_of_toList {p q : Path} {a r s : List Char}
    (hp : p.text.toList = a ++ '/' :: r) (hq : q.text.toList = a ++ '/' :: s) :
    p.isAbsolute = q.isAbsolute := by
  rw [isAbsolute, isAbsolute, hp, hq]
  cases a with
  | nil => rfl
  | cons c a => rfl

/-- The path of a file has a segment that counts. -/
theorem exists_segment_of_file {cs : List Char} {content : ByteArray}
    (hwalk : (segments cs).foldlM t.step here = .ok there)
    (hfile : t.found? there = some (.file content)) : ∃ s ∈ segments cs, isTrivial s = false := by
  by_contra hnone
  have hall : ∀ s ∈ segments cs, isTrivial s = true := by
    intro s hs
    by_contra hcounts
    exact hnone ⟨s, hs, Bool.eq_false_iff.2 hcounts⟩
  have hdir := isDirectory_of_foldlM hwalk
  rw [eq_of_foldlM_trivial hall hwalk] at hfile
  rw [not_isDirectory_of_file hfile] at hdir
  cases hdir

/-- Joined to an empty path, a directory stays one. -/
theorem toList_ne_nil_of_file {p e : Path} {content : ByteArray}
    (hq : t.walk (p.join e) = .ok here) (hfile : t.found? here = some (.file content)) :
    e.text.toList ≠ [] := by
  intro he
  obtain ⟨hspelled, hwalk⟩ := walk_eq_ok_iff.1 hq
  have habs : e.isAbsolute = false := by
    rw [isAbsolute, he]
    rfl
  have hjoin := toList_join (p := p) habs
  rw [he, List.append_nil] at hjoin
  rcases lead_eq_nil_or p with hlead | ⟨a, hlead⟩
  · rw [hlead] at hjoin
    exact (spelled_eq_ok_iff.1 hspelled).2 hjoin
  · rw [hjoin, hlead, segments_append, foldlM_append_eq_ok_iff] at hwalk
    obtain ⟨directory, _, hend⟩ := hwalk
    obtain ⟨_, hstep, hnil⟩ := bind_eq_ok_iff.1 hend
    have hall : ∀ s ∈ segments [], isTrivial s = true := by simp [segments, isTrivial]
    have htrivial := eq_of_foldlM_trivial hall hend
    have hdir := (step_cases hstep).1
    rw [← htrivial, not_isDirectory_of_file hfile] at hdir
    cases hdir

section Join

variable {p e : Path} {rest last : List Char} {before after : List (List Char)}
  {content : ByteArray}

/-- The walk of the path to a file comes through the directory of the file, which is where the path
goes on behind its lead. -/
theorem Grounded.walk_lead (ht : t.Grounded)
    (hwalk : (segments p.text.toList).foldlM t.step (t.start p) = .ok here)
    (hfile : t.found? here = some (.file content)) (h : p.Continues rest before last after) :
    (p.directory.lead = [] → t.workingDirectory = here.dropLast) ∧
      ∀ a, p.directory.lead = a ++ ['/'] →
        (segments a).foldlM t.step (t.start p) = .ok here.dropLast := by
  have hdir := isDirectory_of_foldlM hwalk
  have hstart := ht.stands_start hdir
  -- A walk of the rest ends at the file, so it starts in the directory of the file.
  have hlast : ∀ place, t.Stands place → (segments rest).foldlM t.step place = .ok here →
      here.dropLast = place := by
    intro place hstands hrest
    rw [h.segments_eq] at hrest
    exact dropLast_of_foldlM hstands h.before_trivial h.last_counts h.after_trivial hrest hfile
  rw [h.toList_eq] at hwalk
  constructor
  · intro hlead
    rw [start_of_not_isAbsolute (h.relative hlead)] at hwalk hstart
    rw [hlead, List.nil_append] at hwalk
    exact (hlast _ hstart hwalk).symm
  · intro a hlead
    rw [hlead, List.append_assoc, List.singleton_append, segments_append,
      foldlM_append_eq_ok_iff] at hwalk
    obtain ⟨directory, hdirectory, hwalk⟩ := hwalk
    have hstands : t.Stands directory :=
      stands_of_foldlM (fun _ hs => slash_not_mem_of_mem_segments hs) hstart hdirectory
    rw [hlast _ hstands hwalk]
    exact hdirectory

/-- The walk of a relative path that is joined to the directory of a file. -/
theorem Grounded.walk_segments_join (ht : t.Grounded)
    (hwalk : (segments p.text.toList).foldlM t.step (t.start p) = .ok here)
    (hfile : t.found? here = some (.file content)) (h : p.Continues rest before last after)
    (he : e.isAbsolute = false) :
    (segments (p.directory.join e).text.toList).foldlM t.step (t.start (p.directory.join e)) =
      (segments e.text.toList).foldlM t.step here.dropLast := by
  obtain ⟨hworking, hdirectory⟩ := ht.walk_lead hwalk hfile h
  have hjoin := toList_join (p := p.directory) he
  have htext := h.toList_eq
  rcases lead_eq_nil_or p.directory with hlead | ⟨a, hlead⟩
  · rw [hlead, List.nil_append] at hjoin
    rw [eq_of_toList_eq hjoin, start_of_not_isAbsolute he, hworking hlead]
  · rw [hlead, List.append_assoc, List.singleton_append] at htext hjoin
    have habs : (p.directory.join e).isAbsolute = p.isAbsolute :=
      isAbsolute_eq_of_toList hjoin htext
    have hstart : t.start (p.directory.join e) = t.start p := by
      rw [start, start, habs]
    rw [hjoin, segments_append, List.foldlM_append, hstart, hdirectory a hlead]
    rfl

/-- **Where a joined path leads.** Read from the directory of a file, a path leads to where it leads
from the file's place. -/
theorem walk_join (ht : t.Grounded) (hp : t.locate p = .ok here)
    (hfile : t.found? here = some (.file content)) (he : e.text.toList ≠ []) :
    t.walk (p.directory.join e) = (t.within here.dropLast).walk e := by
  cases habs : e.isAbsolute with
  | true => rw [join_absolute habs, walk_of_isAbsolute habs]
  | false =>
    obtain ⟨hname, hwalk⟩ := locate_eq_ok_iff.1 hp
    obtain ⟨rest, before, last, after, h⟩ :=
      exists_continues p (exists_segment_of_file hwalk hfile)
    -- The lead of the joined path is a part of the path to the file.
    have hnul : '\x00' ∉ p.directory.lead := by
      intro hmem
      refine (nameable_eq_ok_iff.1 hname).1 ?_
      rw [h.toList_eq]
      exact List.mem_append_left _ hmem
    have hspelled : spelled (p.directory.join e) = spelled e :=
      spelled_of_append hnul (toList_join habs) he
    have hstart : (t.within here.dropLast).start e = here.dropLast :=
      start_of_not_isAbsolute habs
    rw [walk, walk, hspelled, hstart, ht.walk_segments_join hwalk hfile h habs]
    rfl

/-- Joining a path to another one does not make it shorter. -/
theorem utf8ByteSize_le_join (p e : Path) : e.text.utf8ByteSize ≤ (p.join e).text.utf8ByteSize := by
  cases habs : e.isAbsolute with
  | true => rw [join_absolute habs]
  | false =>
    have htext : (p.join e).text = String.ofList p.lead ++ e.text := by
      rw [← String.toList_inj, String.toList_append, String.toList_ofList, toList_join habs]
    rw [htext, String.utf8ByteSize_append]
    exact Nat.le_add_left _ _

/-- Where a joined path leads that is looked up as it stands. -/
theorem locate_join (ht : t.Grounded) (hp : t.locate p = .ok here)
    (hfile : t.found? here = some (.file content)) (he : e.text.toList ≠ [])
    (hfit : (p.directory.join e).text.utf8ByteSize ≤ pathLimit) :
    t.locate (p.directory.join e) = (t.within here.dropLast).locate e := by
  have hsize := (utf8ByteSize_le_join p.directory e).trans hfit
  rw [locate_of_le hfit, locate_of_le hsize, walk_join ht hp hfile he]

end Join

end FileTree

end Foundry
