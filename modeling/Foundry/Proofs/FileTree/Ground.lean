import Foundry.Proofs.FileTree.Location

/-!
# Trees that stay on the ground

A tree that has nothing but its working directory is `Grounded`, and it stays so when files are
written and removed, since neither touches a directory.

* `grounded_withWorkingDirectory`, `Grounded.write`, `Grounded.remove`.
-/

namespace Foundry.FileTree

variable {t u : FileTree} {here there : Location} {p : Path}

/-! ### Directories -/

/-- Whether a tree is grounded depends on the working directory and on what is a directory. -/
theorem Grounded.congr (ht : t.Grounded) (hworking : u.workingDirectory = t.workingDirectory)
    (hdirectories : ∀ l, u.isDirectory l = t.isDirectory l) : u.Grounded := by
  intro hdir
  rw [hworking, hdirectories] at hdir
  rw [hworking]
  obtain ⟨hnames, habove⟩ := ht hdir
  refine ⟨hnames, fun n hn => ?_⟩
  rw [hdirectories]
  exact habove n hn

theorem isDirectory_put_of_ne {e : Entry} (h : here ≠ there) :
    (t.put here e).isDirectory there = t.isDirectory there := by
  rw [isDirectory, found?_put_of_ne t h, ← isDirectory]

/-- A file in the place of no directory leaves all directories as they are. -/
theorem isDirectory_put_file {content : ByteArray} (h : t.isDirectory here = false)
    (there : Location) : (t.put here (.file content)).isDirectory there = t.isDirectory there := by
  by_cases hthere : here = there
  · rw [← hthere, h]
    have hne : here ≠ [] := by
      rintro rfl
      rw [isDirectory_nil] at h
      cases h
    exact not_isDirectory_of_file (found?_put_self t hne _)
  · exact isDirectory_put_of_ne hthere

/-! ### Writing -/

/-- A file is not written in the place of a directory. -/
theorem not_isDirectory_of_target (h : t.target p = .ok here) : t.isDirectory here = false := by
  unfold target at h
  obtain ⟨_, _, h⟩ := bind_eq_ok_iff.1 h
  dsimp only at h
  split at h
  · cases h
  · obtain ⟨directory, _, h⟩ := bind_eq_ok_iff.1 h
    -- A target ends with a name; the other endings are refused.
    split_ifs at h with hlast _ _ _ hdir
    · obtain ⟨_, _, h⟩ := bind_eq_ok_iff.1 h
      cases h
    · rw [← Except.ok.inj h]
      exact Bool.eq_false_iff.2 hdir

/-- **Writing keeps a tree on the ground.** -/
theorem Grounded.write {text : String} (ht : t.Grounded) (h : t.write p text = .ok u) :
    u.Grounded := by
  obtain ⟨here, htarget, hu⟩ := bind_eq_ok_iff.1 h
  rw [← Except.ok.inj hu]
  exact ht.congr rfl (isDirectory_put_file (not_isDirectory_of_target htarget))

/-! ### Removing -/

theorem find?_filter_ne (entries : List (Location × Entry)) (h : here ≠ there) :
    (entries.filter fun e => e.1 != here).find? (fun e => e.1 == there) =
      entries.find? fun e => e.1 == there := by
  rw [List.find?_filter]
  congr 1
  funext e
  by_cases he : e.1 = there
  · simp [he, Ne.symm h]
  · simp [he]

theorem find?_filter_self (entries : List (Location × Entry)) (here : Location) :
    (entries.filter fun e => e.1 != here).find? (fun e => e.1 == here) = none := by
  rw [List.find?_eq_none]
  intro e he
  rw [List.mem_filter, bne_iff_ne] at he
  rw [beq_iff_eq]
  exact he.2

/-- **Removing keeps a tree on the ground.** -/
theorem Grounded.remove (ht : t.Grounded) (h : t.remove p = .ok u) : u.Grounded := by
  obtain ⟨here, _, hu⟩ := bind_eq_ok_iff.1 h
  split at hu
  · cases hu
  · rename_i hdir
    rw [Bool.not_eq_true] at hdir
    rw [← Except.ok.inj hu]
    refine ht.congr rfl fun l => ?_
    -- What is removed was no directory before.
    by_cases hl : here = l
    · rw [← hl, hdir, isDirectory, found?]
      split_ifs with hroot
      · rw [hroot, isDirectory_nil] at hdir
        cases hdir
      · dsimp only
        rw [find?_filter_self]
        rfl
    · rw [isDirectory, isDirectory, found?, found?]
      dsimp only
      rw [find?_filter_ne t.entries hl]

/-! ### Starting -/

/-- No file stands anywhere. -/
def NoFiles (t : FileTree) : Prop :=
  ∀ l content, t.found? l ≠ some (.file content)

/-- One step of `makeDirectories`. -/
def makeDirectory (t : FileTree) (d : Location) : FileTree :=
  if (t.found? d).isSome then t else t.put d .directory

theorem NoFiles.makeDirectory (ht : t.NoFiles) (d : Location) :
    (t.makeDirectory d).NoFiles ∧ (t.makeDirectory d).isDirectory d = true ∧
      ∀ l, t.isDirectory l = true → (t.makeDirectory d).isDirectory l = true := by
  unfold FileTree.makeDirectory
  split
  · rename_i hsome
    refine ⟨ht, ?_, fun l hl => hl⟩
    obtain ⟨e, he⟩ := Option.isSome_iff_exists.1 hsome
    rw [isDirectory_iff, he]
    cases e with
    | directory => rfl
    | file content => exact absurd he (ht d content)
  · rename_i hnone
    have hne : d ≠ [] := by
      rintro rfl
      exact hnone rfl
    have hself : (t.put d .directory).found? d = some .directory := found?_put_self t hne _
    refine ⟨fun l content => ?_, isDirectory_iff.2 hself, fun l hl => ?_⟩
    · by_cases hd : d = l
      · rw [← hd, hself]
        intro h
        cases h
      · rw [found?_put_of_ne t hd]
        exact ht l content
    · by_cases hd : d = l
      · rw [← hd]
        exact isDirectory_iff.2 hself
      · rw [isDirectory_put_of_ne hd]
        exact hl

/-- Where there are no files, any number of directories can be made. -/
theorem NoFiles.foldl_makeDirectory {ds : List Location} (ht : t.NoFiles) :
    (∀ d ∈ ds, (ds.foldl FileTree.makeDirectory t).isDirectory d = true) ∧
      ∀ l, t.isDirectory l = true → (ds.foldl FileTree.makeDirectory t).isDirectory l = true := by
  induction ds generalizing t with
  | nil => exact ⟨List.forall_mem_nil _, fun l hl => hl⟩
  | cons d ds ih =>
    obtain ⟨hfiles, hself, hkept⟩ := ht.makeDirectory d
    obtain ⟨hmade, hkept'⟩ := ih hfiles
    rw [List.foldl_cons, List.forall_mem_cons]
    exact ⟨⟨hkept' d hself, hmade⟩, fun l hl => hkept' l (hkept l hl)⟩

theorem workingDirectory_foldl_makeDirectory (ds : List Location) (t : FileTree) :
    (ds.foldl FileTree.makeDirectory t).workingDirectory = t.workingDirectory := by
  induction ds generalizing t with
  | nil => rfl
  | cons d ds ih =>
    rw [List.foldl_cons, ih, FileTree.makeDirectory]
    split <;> rfl

/-- **Where runs start.** A tree with a working directory under names, and nothing else, is
grounded. -/
theorem grounded_withWorkingDirectory (hnames : ∀ name ∈ here, Path.IsName name.toList) :
    (withWorkingDirectory here).Grounded := by
  have hempty : (⟨[], here⟩ : FileTree).NoFiles := by
    intro l content
    rw [found?]
    split <;> simp
  have hmade : ∀ d ∈ (List.range (here.length + 1)).map here.take,
      (withWorkingDirectory here).isDirectory d = true := hempty.foldl_makeDirectory.1
  intro _
  have hworking : (withWorkingDirectory here).workingDirectory = here :=
    workingDirectory_foldl_makeDirectory _ _
  rw [hworking]
  -- Every directory above the working directory was made before it.
  refine ⟨hnames, fun n hn => hmade _ (List.mem_map.2 ⟨n, ?_, rfl⟩)⟩
  rw [List.mem_range]
  omega

end Foundry.FileTree
