/-
  The program on the files of a machine.
-/
import GaussianIntegrals.CommandLine.Session

namespace GaussianIntegrals

/-- A run on a machine, with the log file in use and the least level of its records. -/
abbrev MachineRun := StateT (Option (IO.FS.Handle × LogLevel)) IO

namespace MachineRun

/-- The number and the words that the operating system gives for an error. -/
def systemWords : IO.Error → Nat × String
  | .alreadyExists _ code details => (code.toNat, details)
  | .otherError code details => (code.toNat, details)
  | .resourceBusy code details => (code.toNat, details)
  | .resourceVanished code details => (code.toNat, details)
  | .unsupportedOperation code details => (code.toNat, details)
  | .hardwareFault code details => (code.toNat, details)
  | .unsatisfiedConstraints code details => (code.toNat, details)
  | .illegalOperation code details => (code.toNat, details)
  | .interrupted _ code details => (code.toNat, details)
  | .noFileOrDirectory _ code details => (code.toNat, details)
  | .invalidArgument _ code details => (code.toNat, details)
  | .permissionDenied _ code details => (code.toNat, details)
  | .resourceExhausted _ code details => (code.toNat, details)
  | .inappropriateType _ code details => (code.toNat, details)
  | .noSuchThing _ code details => (code.toNat, details)
  | e => (5, toString e)

/-- The faults that a file operation has words for. -/
def namedFaults : List FileFault := [.missing, .occupied, .notDirectory, .isDirectory, .nameTooLong]

/-- The fault behind an error. Some operations give the number negated, as a 32-bit word. -/
def faultOf (e : IO.Error) : FileFault :=
  let (word, reason) := systemWords e
  let number := if word < 2147483648 then word else 4294967296 - word
  (namedFaults.find? fun f => f.words.1 == some number).getD (.system number reason)

/-- A file operation; a path with a null character is refused before it. -/
def attempt {α : Type} (path : String) (act : IO α) : MachineRun (Except FileError α) := do
  if path.toList.contains '\x00' then pure (.error ⟨.nullCharacter, path⟩)
  else
    match ← (act.toBaseIO : BaseIO (Except IO.Error α)) with
    | .ok x => pure (.ok x)
    | .error e => pure (.error ⟨faultOf e, path⟩)

instance : Host MachineRun where
  store path text := attempt path (IO.FS.writeFile path text)
  load path := attempt path (IO.FS.readFile path)
  createDirectory path := attempt path (IO.FS.createDir path)
  pathExists path := do
    if path.toList.contains '\x00' then pure false else (System.mkFilePath [path]).pathExists
  isDirectory path := do
    if path.toList.contains '\x00' then pure false else (System.mkFilePath [path]).isDir
  fullPath path := do
    pure (Path.normalized (Path.join (← IO.currentDir).toString path))
  openLog path threshold := do
    match ← attempt path (IO.FS.Handle.mk path .append) with
    | .ok handle =>
      set (some (handle, threshold))
      pure (.ok ())
    | .error e => pure (.error e)
  keeps level := do pure ((← get).any fun log => log.2.rank ≤ level.rank)
  record r := do
    match ← get with
    | some (handle, threshold) =>
      if r.reaches threshold then
        handle.putStr (r.line ++ "\n")
        handle.flush
    | none => pure ()

end MachineRun

end GaussianIntegrals

open GaussianIntegrals in
/-- Runs the program over all pairs of shells. -/
def main (words : List String) : IO UInt32 := do
  let call : MachineRun CommandLine.Outcome := CommandLine.call ShellPair.all words
  let (outcome, _) ← call.run none
  (← IO.getStdout).putStr outcome.output
  (← IO.getStderr).putStr outcome.errors
  pure outcome.status.toUInt32
