/-
  The surroundings of a run: files, directories and a log. A run is written over any monad
  that offers them, so that the same run acts on a tree of files held as a value and on the
  files of a machine.
-/
import GaussianIntegrals.Files.Fault
import GaussianIntegrals.Files.Path
import GaussianIntegrals.Log

namespace GaussianIntegrals

/-- What a run needs of its surroundings. -/
class Host (m : Type → Type) where
  /-- Writes a file, new or over an old one. -/
  store (path text : String) : m (Except FileError Unit)
  /-- The text of a file. -/
  load (path : String) : m (Except FileError String)
  /-- Makes a directory in a directory that is there. -/
  createDirectory (path : String) : m (Except FileError Unit)
  /-- Something stands at a path. -/
  pathExists (path : String) : m Bool
  /-- A directory stands at a path. -/
  isDirectory (path : String) : m Bool
  /-- A path from the root. -/
  fullPath (path : String) : m String
  /-- From now on records at a level or above it are added to a file. -/
  openLog (path : String) (threshold : LogLevel) : m (Except FileError Unit)
  /-- Records at a level are kept somewhere. -/
  keeps (level : LogLevel) : m Bool
  /-- Puts a record on the log. -/
  record (r : LogRecord) : m Unit

namespace Host

variable {m : Type → Type} [Monad m] [Host m]

/-- Puts a message of a level on the log. -/
def log (level : LogLevel) (message : String) : m Unit := record ⟨level, message⟩

/-- Puts records of a level on the log. They are not made up unless they are kept. -/
def logAll (level : LogLevel) (records : Unit → List LogRecord) : m Unit := do
  if ← keeps level then (records ()).forM record

/-- Makes a directory; one that is there already is accepted where that is asked for. -/
def createOrAccept (mayExist : Bool) (path : String) : m (Except FileError Unit) := do
  match ← createDirectory path with
  | .ok () => pure (.ok ())
  | .error e => pure (if mayExist && (← isDirectory path) then .ok () else .error e)

/-- Makes the first of some directories after the ones that hold it, as far as they are
missing. A path that ends in `.` is there as soon as the directory that holds it is made. -/
def createChain (mayExist : Bool) : List (String × String) → m (Except FileError Unit)
  | [] => pure (.ok ())
  | [(path, _)] => createOrAccept mayExist path
  | (path, name) :: (parent, parentName) :: rest => do
    if ← pathExists parent then createOrAccept mayExist path
    else
      match ← createChain mayExist ((parent, parentName) :: rest) with
      | .error e =>
        if e.fault ≠ .occupied then pure (.error e)
        else if name = "." then pure (.ok ())
        else createOrAccept mayExist path
      | .ok () =>
        if name = "." then pure (.ok ()) else createOrAccept mayExist path

/-- Makes a directory and the directories on the way to it. -/
def createDirectories (path : String) (mayExist : Bool) : m (Except FileError Unit) :=
  createChain mayExist (Path.ancestry path.toList)

end Host

end GaussianIntegrals
