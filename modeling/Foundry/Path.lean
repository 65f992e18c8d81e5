import Foundry.Text.Affix

/-!
# Paths

A path is a text, kept as it was written, and read through its components: a `/` at the start is the
root, a `.` at the start of a relative path stands for the current directory, and every other empty
or `.` segment counts for nothing. Two paths are `same` when their components are equal.

`join`, `parent?` and `stripStart?` work on the text and keep what is left of it as it was written,
repeated separators in the middle included.

* `joinSegments_segments`: splitting at separators loses nothing.
* `join_absolute`: an absolute path replaces what it is joined to.
-/

namespace Foundry

open Foundry.Text

/-- A path, as it was written. -/
structure Path where
  text : String
  deriving DecidableEq

namespace Path

instance : Inhabited Path := ⟨⟨""⟩⟩

/-- The part of a path that a segment stands for. -/
inductive Component where
  | root
  | current
  | parent
  | normal (name : List Char)
  deriving DecidableEq

/-! ### Segments -/

/-- The texts between separators. -/
def segments : List Char → List (List Char)
  | [] => [[]]
  | c :: cs =>
    if c = '/' then [] :: segments cs
    else match segments cs with
      | s :: ss => (c :: s) :: ss
      | [] => [[c]]

/-- Segments with separators between them. -/
def joinSegments (ss : List (List Char)) : List Char :=
  ['/'].intercalate ss

/-- Segments that count for nothing. -/
def isTrivial (s : List Char) : Bool :=
  s == [] || s == ['.']

/-- The component that a segment stands for behind the start of a path. -/
def ofSegment? (s : List Char) : Option Component :=
  if isTrivial s then none
  else if s = ['.', '.'] then some .parent
  else some (.normal s)

/-- The start of a path: the root, or a leading `.`; and the segments behind it. -/
def split (cs : List Char) : Option Component × List (List Char) :=
  match cs with
  | '/' :: r => (some .root, segments r)
  | '.' :: r =>
    if r = [] ∨ r.head? = some '/' then (some .current, segments r) else (none, segments cs)
  | _ => (none, segments cs)

/-- The text of a start. -/
def startText : Option Component → List Char
  | some .root => ['/']
  | some .current => ['.']
  | _ => []

/-- Whether the path starts at the root. -/
def isAbsolute (p : Path) : Bool :=
  p.text.toList.head? == some '/'

/-- The components of a path. -/
def components (p : Path) : List Component :=
  let (start, ss) := split p.text.toList
  start.toList ++ ss.filterMap ofSegment?

/-- Whether two paths have the same components. -/
def same (p q : Path) : Bool :=
  p.components == q.components

/-! ### Operations -/

/-- A path read from within another; an absolute path replaces it. -/
def join (base p : Path) : Path :=
  if p.isAbsolute ∨ base.text.toList = [] then p
  else if base.text.toList.getLast? = some '/' then ⟨base.text ++ p.text⟩
  else ⟨base.text ++ "/" ++ p.text⟩

/-- Segments without those at the end that count for nothing. -/
def dropTrivialEnd (ss : List (List Char)) : List (List Char) :=
  (ss.reverse.dropWhile isTrivial).reverse

/-- The path without its last component; the root and the empty path have none to drop. -/
def parent? (p : Path) : Option Path :=
  let (start, ss) := split p.text.toList
  match ss.reverse.dropWhile isTrivial with
  | _ :: before =>
    let kept := (before.dropWhile isTrivial).reverse
    some ⟨String.ofList (startText start ++ joinSegments kept)⟩
  | [] => if start = some .current then some ⟨""⟩ else none

/-- The directory that a file's path names; a path without one is the empty path. -/
def directory (p : Path) : Path :=
  p.parent?.getD ⟨""⟩

/-- The segments behind given components, if the segments start with these. -/
def dropComponents? : List Component → List (List Char) → Option (List (List Char))
  | [], ss => some ss
  | _ :: _, [] => none
  | c :: cs, s :: ss =>
    match ofSegment? s with
    | none => dropComponents? (c :: cs) ss
    | some d => if c = d then dropComponents? cs ss else none

/-- The rest of a path behind another one that it starts with, component by component. -/
def stripStart? (base p : Path) : Option Path :=
  let (start, ss) := split p.text.toList
  match base.components with
  | [] => some ⟨String.ofList (startText start ++ joinSegments (dropTrivialEnd ss))⟩
  | c :: cs =>
    let behind := match start with
      | some d => if c = d then dropComponents? cs ss else none
      | none => dropComponents? (c :: cs) ss
    behind.map fun rest =>
      ⟨String.ofList (joinSegments (dropTrivialEnd (rest.dropWhile isTrivial)))⟩

/-- The text of a component. -/
def Component.text : Component → String
  | root => "/"
  | current => "."
  | parent => ".."
  | normal name => String.ofList name

/-- One step of `normalize`: a `..` takes back what stands before it, if anything does. -/
def fold (p : Path) : Component → Path
  | .current => p
  | .parent => (p.parent?).getD (p.join ⟨".."⟩)
  | c => p.join ⟨c.text⟩

/-- The path with `.` dropped and `..` folded, by its text alone. -/
def normalize (p : Path) : Path :=
  p.components.foldl fold ⟨""⟩

/-! ### Small laws -/

theorem segments_ne_nil (cs : List Char) : segments cs ≠ [] := by
  cases cs with
  | nil => simp [segments]
  | cons c cs =>
    simp only [segments]
    split
    · simp
    · split <;> simp

/-- **Nothing is lost.** -/
theorem joinSegments_segments (cs : List Char) : joinSegments (segments cs) = cs := by
  induction cs with
  | nil => rfl
  | cons c cs ih =>
    simp only [segments]
    split
    · rename_i h
      subst h
      obtain ⟨s, ss, hs⟩ := List.exists_cons_of_ne_nil (segments_ne_nil cs)
      rw [hs] at ih ⊢
      simp only [joinSegments, List.intercalate, List.intersperse] at ih ⊢
      simpa using ih
    · obtain ⟨s, ss, hs⟩ := List.exists_cons_of_ne_nil (segments_ne_nil cs)
      rw [hs] at ih ⊢
      cases ss with
      | nil => simpa [joinSegments, List.intercalate] using ih
      | cons t ts =>
        simp only [joinSegments, List.intercalate, List.intersperse] at ih ⊢
        simpa using ih

theorem join_absolute {base p : Path} (h : p.isAbsolute = true) : base.join p = p := by
  simp [join, h]

end Path

end Foundry
