/-
  Why a file or a directory cannot be used, and the wording of it.
-/
import GaussianIntegrals.Text.Quoted

namespace GaussianIntegrals

/-- Why a path cannot be used as asked. -/
inductive FileFault where
  /-- Nothing stands there. -/
  | missing
  /-- Something stands there already. -/
  | occupied
  /-- A file stands where a directory is needed. -/
  | notDirectory
  /-- A directory stands where a file is needed. -/
  | isDirectory
  /-- The path or one of its names is too long. -/
  | nameTooLong
  /-- The path holds a null character. -/
  | nullCharacter
  /-- Another refusal of the operating system, with its number. -/
  | system (number : Nat) (reason : String)
  deriving DecidableEq, Repr

/-- The number and the standing words of a fault; a null character has no number. -/
def FileFault.words : FileFault → Option Nat × String
  | .missing => (some 2, "No such file or directory")
  | .occupied => (some 17, "File exists")
  | .notDirectory => (some 20, "Not a directory")
  | .isDirectory => (some 21, "Is a directory")
  | .nameTooLong => (some 36, "File name too long")
  | .nullCharacter => (none, "embedded null byte")
  | .system number reason => (some number, reason)

/-- A path that cannot be used. -/
structure FileError where
  fault : FileFault
  path : String
  deriving DecidableEq, Repr

/-- The wording of a file error. -/
def FileError.message (e : FileError) : String :=
  match e.fault.words with
  | (some number, reason) => s!"[Errno {number}] {reason}: {Text.quote e.path}"
  | (none, reason) => reason

end GaussianIntegrals
