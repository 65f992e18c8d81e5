import Foundry.Path

/-!
# File trees

A `FileTree` is what a program sees of a file system without links: directories and files under
canonical names, and the directory that relative paths start from. The canonical path of each of
them is one that the operating system takes; the path by which a program names it need not be. Every
operation is a function on the tree.

A path is looked up segment by segment: everything before a segment has to be a directory, `..` goes
up (the root is its own parent), and a `/` at the end asks for a directory. A `Fault` says why that
fails, in the words of the operating system.

* `canonical?_of_locate`: what can be looked up has a canonical path.
* `found?_put_self`: what was put under a name stands there.
* `found?_put_of_ne`: nothing else changes.
-/

namespace Foundry

/-- Why a path cannot be read or written. -/
inductive Fault where
  | notFound
  | notADirectory
  | isADirectory
  | nameTooLong
  | invalidName
  | notText
  deriving DecidableEq

def Fault.message : Fault → String
  | .notFound => "No such file or directory (os error 2)"
  | .notADirectory => "Not a directory (os error 20)"
  | .isADirectory => "Is a directory (os error 21)"
  | .nameTooLong => "File name too long (os error 36)"
  | .invalidName => "file name contained an unexpected NUL byte"
  | .notText => "stream did not contain valid UTF-8"

/-- The names from the root down to an entry. -/
abbrev Location := List String

/-- What stands at a location. -/
inductive Entry where
  | directory
  | file (content : ByteArray)

/-- Directories and files, and the working directory. The root needs no entry. -/
structure FileTree where
  entries : List (Location × Entry)
  workingDirectory : Location

namespace FileTree

/-- What stands at a location. -/
def found? (t : FileTree) (here : Location) : Option Entry :=
  if here = [] then some .directory
  else (t.entries.find? fun e => e.1 == here).map (·.2)

/-- Whether a directory stands at a location. -/
def isDirectory (t : FileTree) (here : Location) : Bool :=
  match t.found? here with
  | some .directory => true
  | _ => false

/-! ### Looking up -/

/-- The greatest length of a name and of a path, in bytes. -/
def nameLimit : Nat := 255

def pathLimit : Nat := 4095

/-- One step down from a location, up from it, or none. -/
def step (t : FileTree) (here : Location) (segment : List Char) : Except Fault Location :=
  if !t.isDirectory here then .error .notADirectory
  else if Path.isTrivial segment then .ok here
  else if segment = ['.', '.'] then .ok here.dropLast
  else
    let name := String.ofList segment
    if nameLimit < name.utf8ByteSize then .error .nameTooLong
    else if (t.found? (here ++ [name])).isSome then .ok (here ++ [name])
    else .error .notFound

/-- Refuses a path that is no name of anything. -/
def spelled (p : Path) : Except Fault Unit :=
  if p.text.toList.contains '\x00' then .error .invalidName
  else if p.text.toList = [] then .error .notFound
  else .ok ()

/-- Refuses a path that cannot be looked up as it stands. -/
def nameable (p : Path) : Except Fault Unit := do
  spelled p
  if pathLimit < p.text.utf8ByteSize then .error .nameTooLong else .ok ()

/-- Where a path starts: at the root or at the working directory. -/
def start (t : FileTree) (p : Path) : Location :=
  if p.isAbsolute then [] else t.workingDirectory

/-- The location that a path leads to, one name after the other, however long the path is. -/
def walk (t : FileTree) (p : Path) : Except Fault Location := do
  spelled p
  (Path.segments p.text.toList).foldlM t.step (t.start p)

/-- The location of an existing file or directory, for a path that is looked up as it stands. -/
def locate (t : FileTree) (p : Path) : Except Fault Location := do
  nameable p
  t.walk p

/-- The absolute path of a location. -/
def pathOf (here : Location) : Path :=
  ⟨"/" ++ "/".intercalate here⟩

/-- The absolute path of an existing file or directory, without `.` or `..`. It is put together name
by name, so `pathLimit` does not apply to the path as it is spelled. -/
def canonical? (t : FileTree) (p : Path) : Option Path :=
  match t.walk p with
  | .ok here => some (pathOf here)
  | .error _ => none

/-- Whether a path leads to a file. -/
def isFile (t : FileTree) (p : Path) : Bool :=
  match t.locate p with
  | .ok here => !t.isDirectory here
  | .error _ => false

/-- The text of a file. -/
def read (t : FileTree) (p : Path) : Except Fault String := do
  match t.found? (← t.locate p) with
  | some (.file content) =>
    match String.fromUTF8? content with
    | some text => .ok text
    | none => .error .notText
  | _ => .error .isADirectory

/-! ### Changing -/

/-- The tree with an entry under a name, in place of what stood there. -/
def put (t : FileTree) (here : Location) (entry : Entry) : FileTree :=
  { t with entries := (here, entry) :: t.entries.filter fun e => e.1 != here }

/-- The location that a file written to a path gets; its directory has to exist. -/
def target (t : FileTree) (p : Path) : Except Fault Location := do
  nameable p
  let trailing := (Path.segments p.text.toList).reverse
  let named := trailing.dropWhile (· == [])
  match named with
  | [] => .error .isADirectory
  | last :: before =>
    let directory ← before.reverse.foldlM t.step (t.start p)
    if last = ['.'] ∨ last = ['.', '.'] then
      let _ ← t.step directory last
      .error .isADirectory
    else if !t.isDirectory directory then .error .notADirectory
    else if named.length < trailing.length then .error .isADirectory
    else
      let name := String.ofList last
      if nameLimit < name.utf8ByteSize then .error .nameTooLong
      else if t.isDirectory (directory ++ [name]) then .error .isADirectory
      else .ok (directory ++ [name])

/-- The tree after a text was written to a path. -/
def write (t : FileTree) (p : Path) (text : String) : Except Fault FileTree := do
  pure (t.put (← t.target p) (.file text.toUTF8))

/-- The tree without the file that a path leads to. -/
def remove (t : FileTree) (p : Path) : Except Fault FileTree := do
  let here ← t.locate p
  if t.isDirectory here then .error .isADirectory
  else pure { t with entries := t.entries.filter fun e => e.1 != here }

/-- The tree with directories at a location and all the way up from it. -/
def makeDirectories (t : FileTree) (here : Location) : FileTree :=
  ((List.range (here.length + 1)).map here.take).foldl
    (fun t d => if (t.found? d).isSome then t else t.put d .directory) t

/-- An empty working directory, and nothing else but what it stands in. -/
def withWorkingDirectory (here : Location) : FileTree :=
  makeDirectories ⟨[], here⟩ here

/-- The location that a path names by its text alone, from the working directory. -/
def textualLocation (t : FileTree) (p : Path) : Location :=
  (Path.segments p.text.toList).foldl
    (fun here s =>
      if Path.isTrivial s then here
      else if s = ['.', '.'] then here.dropLast
      else here ++ [String.ofList s])
    (t.start p)

/-- The tree with a file at a path; directories that are missing on the way are made. -/
def deposit (t : FileTree) (p : Path) (content : ByteArray) : FileTree :=
  let here := t.textualLocation p
  (t.makeDirectories here.dropLast).put here (.file content)

/-! ### Small laws -/

theorem walk_of_locate {t : FileTree} {p : Path} {here : Location} (h : t.locate p = .ok here) :
    t.walk p = .ok here := by
  unfold locate at h
  cases hname : nameable p with
  | error fault =>
    rw [hname] at h
    cases h
  | ok _ =>
    rw [hname] at h
    exact h

theorem canonical?_of_walk {t : FileTree} {p : Path} {here : Location} (h : t.walk p = .ok here) :
    t.canonical? p = some (pathOf here) := by
  rw [canonical?, h]

theorem canonical?_of_locate {t : FileTree} {p : Path} {here : Location}
    (h : t.locate p = .ok here) : t.canonical? p = some (pathOf here) :=
  canonical?_of_walk (walk_of_locate h)

theorem found?_put_self (t : FileTree) {here : Location} (h : here ≠ []) (e : Entry) :
    (t.put here e).found? here = some e := by
  simp [found?, put, h]

theorem found?_put_of_ne (t : FileTree) {here there : Location} (h : here ≠ there) (e : Entry) :
    (t.put here e).found? there = t.found? there := by
  simp only [found?, put, List.find?_cons, beq_eq_false_iff_ne.2 h, List.find?_filter]
  congr 3
  funext d
  by_cases hd : d.1 = there
  · simp [hd, Ne.symm h]
  · simp [hd]

end FileTree

end Foundry
