/-
  A tree of files and directories. Places are lists of names from the root; a path is walked
  part by part, and every part but the last leads through a directory.
-/
import GaussianIntegrals.Files.Fault
import GaussianIntegrals.Text.Split

namespace GaussianIntegrals

/-- What stands at a place. -/
inductive FileEntry where
  | file (text : String)
  | directory
  deriving DecidableEq, Repr

/-- A tree: the place from which relative paths start, and what stands where. The root is
always a directory. -/
structure FileTree where
  workPlace : List String
  entries : List (List String × FileEntry)
  deriving DecidableEq, Repr

namespace FileTree

/-- The greatest number of bytes of a name. -/
def nameLimit : Nat := 255

/-- The greatest number of bytes of a path. -/
def pathLimit : Nat := 4095

/-- The tree with nothing but the directory from which relative paths start. -/
def bare (workPlace : List String) : FileTree :=
  ⟨workPlace, (List.range workPlace.length).map fun n => (workPlace.take (n + 1), .directory)⟩

/-- What stands at a place. -/
def lookup? (t : FileTree) (place : List String) : Option FileEntry :=
  if place.isEmpty then some .directory else t.entries.lookup place

/-- The tree with an entry put at a place. -/
def put (t : FileTree) (place : List String) (e : FileEntry) : FileTree :=
  { t with entries := (place, e) :: t.entries.filter (·.1 ≠ place) }

/-- The place that one part of a path leads to from a place. -/
def step (t : FileTree) (place : List String) (part : String) : Except FileFault (List String) :=
  match t.lookup? place with
  | none => .error .missing
  | some (.file _) => .error .notDirectory
  | some .directory =>
    if part.isEmpty ∨ part = "." then .ok place
    else if part = ".." then .ok place.dropLast
    else if nameLimit < part.utf8ByteSize then .error .nameTooLong
    else .ok (place ++ [part])

/-- The parts of a path with the place where it starts. A path with a null character, an
empty one and one that is too long are refused. -/
def route (t : FileTree) (path : String) : Except FileFault (List String × List String) :=
  if path.toList.contains '\x00' then .error .nullCharacter
  else if path.isEmpty then .error .missing
  else if pathLimit < path.utf8ByteSize then .error .nameTooLong
  else
    .ok (if path.toList.head? = some '/' then [] else t.workPlace,
      (Text.splitAt '/' path.toList).map String.ofList)

/-- What stands at a path; a path that ends in a slash leads to a directory only. -/
def find (t : FileTree) (path : String) : Except FileFault FileEntry := do
  let (start, parts) ← t.route path
  let place ← parts.foldlM t.step start
  match t.lookup? place with
  | some e => .ok e
  | none => .error .missing

/-- The end of a path: the directory that holds its last name, that name unless it is `.` or
`..` or there is none, and whether a slash follows. -/
structure Target where
  directory : List String
  name : Option String
  slashed : Bool
  deriving DecidableEq, Repr

/-- The name at which a path ends and the directory that holds it, which is there. -/
def target (t : FileTree) (path : String) : Except FileFault Target := do
  let (start, parts) ← t.route path
  let unslashed := parts.reverse.dropWhile (·.isEmpty)
  let directory ← (unslashed.drop 1).reverse.foldlM t.step start
  let _ ← t.step directory "."
  let name := unslashed.head?.filter fun n => n ≠ "." ∧ n ≠ ".."
  .ok ⟨directory, name, unslashed.length < parts.length⟩

/-- The place of the file that a path names, to be written; it may be missing. -/
def filePlace (t : FileTree) (path : String) : Except FileFault (List String) := do
  match ← t.target path with
  | ⟨directory, some name, false⟩ =>
    let place ← t.step directory name
    match t.lookup? place with
    | some .directory => .error .isDirectory
    | _ => .ok place
  | _ => .error .isDirectory

/-- Writes a file, new or over an old one. -/
def write (t : FileTree) (path text : String) : Except FileFault FileTree := do
  .ok (t.put (← t.filePlace path) (.file text))

/-- Adds a text to a file, new or old. -/
def append (t : FileTree) (path text : String) : Except FileFault FileTree := do
  let place ← t.filePlace path
  match t.lookup? place with
  | some (.file old) => .ok (t.put place (.file (old ++ text)))
  | _ => .ok (t.put place (.file text))

/-- The text of a file. -/
def read (t : FileTree) (path : String) : Except FileFault String := do
  match ← t.find path with
  | .file text => .ok text
  | .directory => .error .isDirectory

/-- Makes a directory. -/
def createDirectory (t : FileTree) (path : String) : Except FileFault FileTree := do
  match ← t.target path with
  | ⟨_, none, _⟩ => .error .occupied
  | ⟨directory, some name, _⟩ =>
    let place ← t.step directory name
    match t.lookup? place with
    | some _ => .error .occupied
    | none => .ok (t.put place .directory)

theorem lookup?_put_self (t : FileTree) {place : List String} (h : place ≠ []) (e : FileEntry) :
    (t.put place e).lookup? place = some e := by
  simp [lookup?, put, h]

theorem lookup?_put_of_ne (t : FileTree) {place other : List String} (h : other ≠ place)
    (e : FileEntry) : (t.put place e).lookup? other = t.lookup? other := by
  have key : ∀ xs : List (List String × FileEntry),
      (xs.filter (·.1 ≠ place)).lookup other = xs.lookup other := by
    intro xs
    induction xs with
    | nil => rfl
    | cons x xs ih =>
      by_cases hp : x.1 = place
      · have ho : (other == x.1) = false := by rw [hp]; simpa using h
        rw [List.filter_cons_of_neg (by simpa using hp), ih, List.lookup_cons, ho]
      · rw [List.filter_cons_of_pos (by simpa using hp), List.lookup_cons, List.lookup_cons, ih]
  have ho : (other == place) = false := by simpa using h
  simp only [lookup?, put, List.lookup_cons, ho, key]

end FileTree

end GaussianIntegrals
