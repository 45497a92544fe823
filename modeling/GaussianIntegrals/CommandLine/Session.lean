/-
  A call of the program: settings from a file and from the arguments, a log file, and a run.
  What the call prints is part of its outcome.
-/
import GaussianIntegrals.CommandLine.Arguments
import GaussianIntegrals.CommandLine.Help
import GaussianIntegrals.Generation.Run
import GaussianIntegrals.Settings.File

namespace GaussianIntegrals.CommandLine

/-- Why a call fails. -/
inductive CallError where
  /-- A file or directory cannot be used. -/
  | file (cause : FileError)
  /-- The settings file is refused. -/
  | settingsFile (cause : SettingsFileError)
  /-- The settings are not valid. -/
  | settings (cause : SettingsError)
  /-- The run ends early. -/
  | run (cause : RunError)
  deriving DecidableEq, Repr

/-- The wording of a call error. -/
def CallError.message : CallError → String
  | .file cause => cause.message
  | .settingsFile cause => cause.message
  | .settings cause => cause.message
  | .run cause => cause.message

/-- What a call leaves: its exit status and its two outputs. -/
structure Outcome where
  status : Nat
  output : String := ""
  errors : String := ""
  deriving DecidableEq, Repr

/-- The change of the settings that arguments ask for. No family at all stands for the
families of the settings. -/
def Arguments.change (a : Arguments) : SettingsChange where
  families := if a.families.isEmpty then none else some a.families
  outputDir := a.outputDir
  workers := a.workers
  boys := if a.noBoys then some false else none

/-- The name of the log file. -/
def logName : String := "intgen.log"

section

variable {m : Type → Type} [Monad m] [Host m]

/-- The settings of a file. -/
def readSettings (path : String) : ExceptT CallError m Settings := do
  match ← ExceptT.lift (Host.load path) with
  | .error e => throw (.file e)
  | .ok text => ExceptT.mk (pure ((SettingsFile.read text).mapError .settingsFile))

/-- The settings of a call. An empty path names no settings file. -/
def callSettings (a : Arguments) : ExceptT CallError m Settings := do
  let base ← match a.config with
    | none => pure .standard
    | some path => if path.isEmpty then pure .standard else readSettings path
  ExceptT.mk (pure ((base.updated a.change).mapError .settings))

/-- Opens the log file; its directory is made if nothing stands there. -/
def openLog (s : Settings) : ExceptT CallError m Unit := do
  unless ← ExceptT.lift (Host.pathExists s.logDir) do
    let made ← ExceptT.lift (Host.createDirectories s.logDir false)
    ExceptT.mk (pure (made.mapError .file))
  let path ← ExceptT.lift (Host.fullPath (Path.join s.logDir logName))
  let opened ← ExceptT.lift (Host.openLog path s.logLevel)
  ExceptT.mk (pure (opened.mapError .file))

/-- A run with the settings of a call; the result is the paths of the artifacts. -/
def perform (pairs : List ShellPair) (a : Arguments) : ExceptT CallError m (List String) := do
  let s ← callSettings a
  openLog s
  ExceptT.lift (Host.log .info
    s!"Generating families {Text.quoteList (s.families.map FamilyName.text)} into {s.outputDir}")
  (Settings.generate pairs s).adapt .run

/-- The program on its arguments. -/
def call (pairs : List ShellPair) (words : List String) : m Outcome := do
  match read words with
  | .error e =>
    pure { status := 2, errors := usageText ++ s!"{programName}: error: {e.message}\n" }
  | .ok .help => pure { status := 0, output := helpText }
  | .ok (.run a) =>
    match ← (perform pairs a).run with
    | .error e => pure { status := 1, errors := s!"Error: {e.message}\n" }
    | .ok paths =>
      pure { status := 0, output := String.join (paths.map fun p => s!"Wrote {p}\n") }

end

end GaussianIntegrals.CommandLine
