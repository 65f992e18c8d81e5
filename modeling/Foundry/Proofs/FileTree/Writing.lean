import Foundry.Proofs.FileTree.Ground

/-!
# What a write leaves

A text that was written to a path is what is read from the path afterwards, and nothing else has
changed. The way to the file is the same as before: a file is put beside directories and never in
the place of one, so every step that could be taken can still be taken.

* `target_eq_ok`: a file is written under the last segment of its path, in the directory that the
  others lead to.
* `locate_put_of_target`: that is where the path leads when the file is there.
* `locate_put_file_iff`, `read_put_file`, `isFile_put_file`: every path that does not lead to the
  file leads where it did before, and the same is read from it.
* `replaces_of_target`: what the tree is like afterwards.
-/

namespace Foundry.FileTree

open Foundry.Path

variable {t u : FileTree} {here there directory : Location} {p : Path} {content : ByteArray}
  {text : String}

/-! ### Where a file is written -/

/-- The last segment of a path is a name that a directory may have an entry under, and the other
segments lead to the directory. -/
structure NamesIn (t : FileTree) (p : Path) (directory : Location) (last : List Char) : Prop where
  nameable : nameable p = .ok ()
  isDirectory : t.isDirectory directory = true
  walk : ∃ before, segments p.text.toList = before ++ [last] ∧
    before.foldlM t.step (t.start p) = .ok directory
  counts : isTrivial last = false
  ne_up : last ≠ ['.', '.']
  short : ¬ nameLimit < (String.ofList last).utf8ByteSize

/-- The last segment of a path, if the path does not end with a separator. -/
theorem segments_of_dropWhile {ss before : List (List Char)} {last : List Char}
    (h : ss.reverse.dropWhile (· == []) = last :: before)
    (hlength : ¬ (last :: before).length < ss.reverse.length) :
    last ≠ [] ∧ ss = before.reverse ++ [last] := by
  have hhead := List.head?_dropWhile_not (· == []) ss.reverse
  rw [h] at hhead
  have hsuffix : last :: before <:+ ss.reverse := h ▸ List.dropWhile_suffix _
  have heq : last :: before = ss.reverse := hsuffix.eq_of_length_le (Nat.not_lt.1 hlength)
  refine ⟨by simpa using hhead, ?_⟩
  rw [← List.reverse_cons, heq, List.reverse_reverse]

/-- A file is written under a name in a directory. -/
theorem target_eq_ok (h : t.target p = .ok here) :
    ∃ directory last, t.NamesIn p directory last ∧ here = directory ++ [String.ofList last] := by
  unfold target at h
  obtain ⟨_, hname, h⟩ := bind_eq_ok_iff.1 h
  dsimp only at h
  split at h
  · cases h
  · rename_i last before hnamed
    obtain ⟨directory, hwalk, h⟩ := bind_eq_ok_iff.1 h
    split_ifs at h with hdots hdir hlength hlong hthere
    · obtain ⟨_, _, h⟩ := bind_eq_ok_iff.1 h
      cases h
    · rw [hnamed] at hlength
      obtain ⟨hne, hsegments⟩ := segments_of_dropWhile hnamed hlength
      rw [not_or] at hdots
      refine ⟨directory, last, ?_, (Except.ok.inj h).symm⟩
      exact
        { nameable := hname
          isDirectory := by simpa using hdir
          walk := ⟨before.reverse, hsegments, hwalk⟩
          counts := by simp [isTrivial, hne, hdots.1]
          ne_up := hdots.2
          short := hlong }

/-! ### The way to the file afterwards -/

/-- An entry in the place of no directory hides nothing. -/
theorem isSome_found?_put (h : (t.found? there).isSome = true) (e : Entry) :
    ((t.put here e).found? there).isSome = true := by
  by_cases hthere : here = there
  · subst hthere
    rcases eq_or_ne here [] with rfl | hne
    · rfl
    · rw [found?_put_self t hne]
      rfl
  · rw [found?_put_of_ne t hthere]
    exact h

/-- A new file is in the way of no step. -/
theorem step_put_file {next : Location} {s : List Char} (hhere : t.isDirectory here = false)
    (h : t.step there s = .ok next) : (t.put here (.file content)).step there s = .ok next := by
  unfold step at h ⊢
  rw [isDirectory_put_file hhere]
  split_ifs at h ⊢ with hdir htrivial hup
  · exact h
  · exact h
  · dsimp only at h ⊢
    split_ifs at h with hlong hsome
    rw [if_neg hlong, if_pos (isSome_found?_put hsome _)]
    exact h

theorem foldlM_step_put_file {ss : List (List Char)} {last : Location}
    (hhere : t.isDirectory here = false) (h : ss.foldlM t.step there = .ok last) :
    ss.foldlM (t.put here (.file content)).step there = .ok last := by
  induction ss generalizing there with
  | nil => exact h
  | cons s ss ih =>
    rw [List.foldlM_cons, bind_eq_ok_iff] at h ⊢
    obtain ⟨next, hstep, h⟩ := h
    exact ⟨next, step_put_file hhere hstep, ih h⟩

/-- **Where the path leads.** A file that was put where the path wants it is found there. -/
theorem locate_put_of_target (h : t.target p = .ok here) :
    (t.put here (.file content)).locate p = .ok here := by
  have hhere := not_isDirectory_of_target h
  obtain ⟨directory, last, hnames, rfl⟩ := target_eq_ok h
  obtain ⟨before, hsegments, hwalk⟩ := hnames.walk
  rw [locate_eq_ok_iff, hsegments, foldlM_append_eq_ok_iff]
  refine ⟨hnames.nameable, directory, foldlM_step_put_file hhere hwalk, ?_⟩
  have hself : ((t.put (directory ++ [String.ofList last]) (.file content)).found?
      (directory ++ [String.ofList last])).isSome = true := by
    rw [found?_put_self t (by simp)]
    rfl
  have hstep : (t.put (directory ++ [String.ofList last]) (.file content)).step directory last =
      .ok (directory ++ [String.ofList last]) := by
    rw [step, isDirectory_put_file hhere, hnames.isDirectory, hnames.counts]
    dsimp only
    rw [if_neg (by decide), if_neg (by decide), if_neg hnames.ne_up, if_neg hnames.short,
      if_pos hself]
  rw [List.foldlM_cons, hstep]
  rfl

/-! ### Other ways -/

/-- Paths lead where they did before. -/
theorem locate_put_file (hhere : t.isDirectory here = false) (h : t.locate p = .ok there) :
    (t.put here (.file content)).locate p = .ok there := by
  obtain ⟨hname, hwalk⟩ := locate_eq_ok_iff.1 h
  exact locate_eq_ok_iff.2 ⟨hname, foldlM_step_put_file hhere hwalk⟩

/-- A walk goes no further than a file. -/
theorem eq_of_foldlM_file {ss : List (List Char)} (hhere : t.isDirectory here = false)
    (h : ss.foldlM t.step here = .ok there) : there = here := by
  cases ss with
  | nil => exact (Except.ok.inj h).symm
  | cons s ss =>
    rw [List.foldlM_cons, bind_eq_ok_iff] at h
    obtain ⟨_, hstep, _⟩ := h
    rw [(step_cases hstep).1] at hhere
    cases hhere

/-- A step that does not end at the new file was there before. -/
theorem step_of_put_file {next : Location} {s : List Char} (hhere : t.isDirectory here = false)
    (hne : next ≠ here) (h : (t.put here (.file content)).step there s = .ok next) :
    t.step there s = .ok next := by
  unfold step at h ⊢
  rw [isDirectory_put_file hhere] at h
  split_ifs at h ⊢ with hdir htrivial hup
  · exact h
  · exact h
  · dsimp only at h ⊢
    split_ifs at h with hlong hsome
    rw [← Except.ok.inj h] at hne
    rw [found?_put_of_ne t hne.symm] at hsome
    rw [if_neg hlong, if_pos hsome]
    exact h

theorem foldlM_step_of_put_file {ss : List (List Char)} {last : Location}
    (hhere : t.isDirectory here = false) (hne : last ≠ here)
    (h : ss.foldlM (t.put here (.file content)).step there = .ok last) :
    ss.foldlM t.step there = .ok last := by
  induction ss generalizing there with
  | nil => exact h
  | cons s ss ih =>
    rw [List.foldlM_cons, bind_eq_ok_iff] at h ⊢
    obtain ⟨next, hstep, h⟩ := h
    refine ⟨next, step_of_put_file hhere (fun hnext => hne ?_) hstep, ih h⟩
    rw [hnext] at h
    exact eq_of_foldlM_file (by rw [isDirectory_put_file hhere, hhere]) h

/-- **Where other paths lead.** A file that was put somewhere is on no way to another place. -/
theorem locate_put_file_iff (hhere : t.isDirectory here = false) (hne : there ≠ here) :
    (t.put here (.file content)).locate p = .ok there ↔ t.locate p = .ok there := by
  refine ⟨fun h => ?_, locate_put_file hhere⟩
  obtain ⟨hname, hwalk⟩ := locate_eq_ok_iff.1 h
  exact locate_eq_ok_iff.2 ⟨hname, foldlM_step_of_put_file hhere hne hwalk⟩

/-- A text that is read from a path which does not lead to the new file is still read from it. -/
theorem read_put_file (hhere : t.isDirectory here = false)
    (hne : (t.put here (.file content)).locate p ≠ .ok here) (h : t.read p = .ok text) :
    (t.put here (.file content)).read p = .ok text := by
  obtain ⟨there, old, hlocate, hfile, htext⟩ := read_eq_ok_iff.1 h
  have hthere : there ≠ here := by
    rintro rfl
    exact hne (locate_put_file hhere hlocate)
  refine read_eq_ok_iff.2 ⟨there, old, (locate_put_file_iff hhere hthere).2 hlocate, ?_, htext⟩
  rw [found?_put_of_ne t hthere.symm, hfile]

theorem isFile_put_file (hhere : t.isDirectory here = false)
    (hne : (t.put here (.file content)).locate p ≠ .ok here) :
    (t.put here (.file content)).isFile p = t.isFile p := by
  rw [isFile, isFile]
  cases hlocate : (t.put here (.file content)).locate p with
  | ok there =>
    have hthere : there ≠ here := by
      rintro rfl
      exact hne hlocate
    rw [(locate_put_file_iff hhere hthere).1 hlocate]
    dsimp only
    rw [isDirectory_put_file hhere]
  | error fault =>
    cases hlocate' : t.locate p with
    | ok there =>
      rw [locate_put_file hhere hlocate'] at hlocate
      cases hlocate
    | error fault' => rfl

/-- A file is written where it was written before. -/
theorem target_put_file (h : t.target p = .ok here) :
    (t.put here (.file content)).target p = .ok here := by
  have hhere := not_isDirectory_of_target h
  unfold target at h ⊢
  obtain ⟨_, hname, h⟩ := bind_eq_ok_iff.1 h
  refine bind_eq_ok_iff.2 ⟨_, hname, ?_⟩
  dsimp only at h ⊢
  split at h
  · cases h
  · rename_i last before hnamed
    obtain ⟨directory, hwalk, h⟩ := bind_eq_ok_iff.1 h
    rw [hnamed] at h ⊢
    refine bind_eq_ok_iff.2 ⟨directory, foldlM_step_put_file hhere hwalk, ?_⟩
    by_cases hlast : last = ['.'] ∨ last = ['.', '.']
    · rw [if_pos hlast] at h
      obtain ⟨_, _, h⟩ := bind_eq_ok_iff.1 h
      cases h
    · rw [if_neg hlast] at h ⊢
      rw [isDirectory_put_file hhere, isDirectory_put_file hhere]
      exact h

/-! ### The tree afterwards -/

/-- A tree that differs from another one by the file at a path only, which holds a text. -/
structure Replaces (t : FileTree) (p : Path) (text : String) (u : FileTree) : Prop where
  workingDirectory : u.workingDirectory = t.workingDirectory
  read : u.read p = .ok text
  elsewhere : ∃ here, t.target p = .ok here ∧ u.found? here = some (.file text.toUTF8) ∧
    ∀ there, there ≠ here → u.found? there = t.found? there

/-- **What a written file changes.** It can be read with its text, and nothing else is touched. -/
theorem replaces_of_target (h : t.target p = .ok here) :
    Replaces t p text (t.put here (.file text.toUTF8)) where
  workingDirectory := rfl
  read := by
    obtain ⟨directory, last, _, rfl⟩ := target_eq_ok h
    exact read_of_text (locate_put_of_target h) (found?_put_self t (by simp) _)
  elsewhere := by
    obtain ⟨directory, last, _, rfl⟩ := target_eq_ok h
    refine ⟨_, h, found?_put_self t (by simp) _, fun there hne => ?_⟩
    exact found?_put_of_ne t hne.symm _

/-- **Emptied and filled.** A file that is put where one was put before leaves nothing of it. -/
theorem put_put (t : FileTree) (here : Location) (e f : Entry) :
    (t.put here e).put here f = t.put here f := by
  simp [put, List.filter_filter]

end Foundry.FileTree
