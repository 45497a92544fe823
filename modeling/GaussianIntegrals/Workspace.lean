/-
  A tree of files as the surroundings of a run, with the records that the run leaves.
-/
import GaussianIntegrals.Files.Tree
import GaussianIntegrals.Host

namespace GaussianIntegrals

/-- The state of a run on a tree of files. -/
structure Workspace where
  tree : FileTree
  /-- The least level of the records that are kept here; none are kept without it. -/
  kept : Option LogLevel := none
  records : Array LogRecord := #[]
  /-- The log file in use and the least level of its records. -/
  logFile : Option (String × LogLevel) := none

namespace Workspace

/-- Runs a change of the tree; a fault leaves the tree as it is. -/
def change (path : String) (f : FileTree → Except FileFault FileTree) :
    StateM Workspace (Except FileError Unit) := fun w =>
  match f w.tree with
  | .ok t => (.ok (), { w with tree := t })
  | .error fault => (.error ⟨fault, path⟩, w)

/-- What stands at a path, a file, a directory or nothing that can be reached. -/
def entryAt? (w : Workspace) (path : String) : Option FileEntry := (w.tree.find path).toOption

/-- A path from the root, normalised. -/
def fullPath (w : Workspace) (path : String) : String :=
  Path.normalized (Path.join ("/" ++ "/".intercalate w.tree.workPlace) path)

/-- Keeps a record here, in the log file, or in both, as its level asks for. -/
def add (w : Workspace) (r : LogRecord) : Workspace :=
  let w := if w.kept.any r.reaches then { w with records := w.records.push r } else w
  match w.logFile with
  | some (path, threshold) =>
    if r.reaches threshold then
      match w.tree.append path (r.line ++ "\n") with
      | .ok t => { w with tree := t }
      | .error _ => w
    else w
  | none => w

instance : Host (StateM Workspace) where
  store path text := change path (·.write path text)
  load path := fun w =>
    ((w.tree.read path).mapError fun fault => ⟨fault, path⟩, w)
  createDirectory path := change path (·.createDirectory path)
  pathExists path := fun w => ((w.entryAt? path).isSome, w)
  isDirectory path := fun w => (w.entryAt? path == some .directory, w)
  fullPath path := fun w => (w.fullPath path, w)
  openLog path threshold := fun w =>
    match change path (·.append path "") w with
    | (.ok (), w) => (.ok (), { w with logFile := some (path, threshold) })
    | (.error e, w) => (.error e, w)
  keeps level := fun w =>
    (w.kept.any (·.rank ≤ level.rank) || w.logFile.any (·.2.rank ≤ level.rank), w)
  record r := fun w => ((), w.add r)

end Workspace

end GaussianIntegrals
