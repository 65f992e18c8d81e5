import Foundry.Program

/-!
# Main

The program on a real file system. `Program.run` works on a file tree that is known beforehand, so
the files are fetched as they turn out to be missing: a run that stops at a path which is not in the
tree is repeated with what stands at that path, until nothing is left to fetch.
-/

namespace Foundry.Main

open Command

/-- What stands at a path of the file system. -/
inductive Found where
  | file (content : ByteArray)
  | directory
  | nothing

/-- Looks at a path of the file system. -/
def look (path : String) : IO Found := do
  match ← (IO.FS.readBinFile path).toBaseIO with
  | .ok content => pure (.file content)
  | .error (.inappropriateType ..) => pure .directory
  | .error _ => pure .nothing

/-- The paths that lead to a path, from its first segment on. -/
def waypoints (p : Path) : List Path :=
  let segments := Path.segments p.text.toList
  (List.range segments.length).map fun n =>
    ⟨String.ofList (Path.joinSegments (segments.take (n + 1)))⟩

/-- The tree with what stands at a path and on the way there. -/
def fetch (t : FileTree) (p : Path) : IO FileTree :=
  (waypoints p).foldlM (fun t q => do
    if q.text.isEmpty then pure t
    else match ← look q.text with
      | .file content => pure (t.deposit q content)
      | .directory => pure (t.makeDirectories (t.textualLocation q))
      | .nothing => pure t) t

/-- The path that a failed run could not find. -/
def missing? : CommandError → Option Path
  | .configuration (.unreadable p .notFound) => some p
  | .request (.descriptor (.unreadable p .notFound)) => some p
  | .unwritable p .notFound => some p
  | _ => none

/-- Fetches what a command line needs, one path after the other; each path is fetched once. -/
partial def gather (t : FileTree) (i : Line.Invocation) (fetched : List Path) : IO FileTree := do
  match ((Program.invoke i).perform t).1 with
  | .ok _ => pure t
  | .error e =>
    match missing? e with
    | some p =>
      if fetched.contains p then pure t
      else gather (← fetch t p) i (p :: fetched)
    | none => pure t

/-- The file tree that a command line needs. -/
def treeFor (arguments : List String) : IO FileTree := do
  let here := (← IO.currentDir).toString
  let location := (FileTree.withWorkingDirectory []).textualLocation ⟨here⟩
  let t := FileTree.withWorkingDirectory location
  match Line.read arguments with
  | .ok i =>
    let t ← fetch t ((FileTree.pathOf location).join ⟨FileTree.configurationName⟩)
    let t ← i.command.output.elim (pure t) (fetch t)
    gather t i []
  | .error _ => pure t

/-- Writes the output file of a run, if there is one. -/
def store (arguments : List String) (t : FileTree) : IO Unit := do
  match Line.read arguments with
  | .ok i =>
    match i.command.output with
    | some p =>
      match t.read p with
      | .ok text => IO.FS.writeFile p.text text
      | .error _ => pure ()
    | none => pure ()
  | .error _ => pure ()

end Foundry.Main

/-- Runs the program. -/
def main (arguments : List String) : IO UInt32 := do
  let exit := Foundry.Program.run (← Foundry.Main.treeFor arguments) arguments
  if exit.code = 0 then Foundry.Main.store arguments exit.tree
  IO.print exit.printed
  match exit.report with
  | some line => IO.eprintln ("ERROR " ++ line)
  | none => pure ()
  pure exit.code.toUInt32
