/-
  The settings of a generation run, and their changes. A change names some settings and
  leaves the others as they are; it is refused as a whole if the outcome is not valid.
-/
import GaussianIntegrals.Dialect
import GaussianIntegrals.Family.Basic
import GaussianIntegrals.Log
import GaussianIntegrals.Text.Casing

namespace GaussianIntegrals

/-- Valid settings of a run. -/
structure Settings where
  /-- The directory of the artifacts. -/
  outputDir : String := "."
  families : List FamilyName := FamilyName.all
  /-- Write the files of the Boys function. -/
  boys : Bool := true
  lineWidth : Int := defaultWidth
  continuation : String := "&"
  workers : Int := 1
  logDir : String := "logs"
  logLevel : LogLevel := .info
  lineWidth_pos : 0 < lineWidth
  workers_pos : 0 < workers

/-- Values for some of the settings, not yet checked. -/
structure SettingsChange where
  outputDir : Option String := none
  families : Option (List String) := none
  boys : Option Bool := none
  lineWidth : Option Int := none
  continuation : Option String := none
  workers : Option Int := none
  logDir : Option String := none
  logLevel : Option String := none
  deriving DecidableEq, Repr

/-- Why settings are not valid. -/
inductive SettingsError where
  /-- No family has this name. -/
  | family (name : String)
  /-- There is no worker. -/
  | workers (count : Int)
  /-- The line width is not positive. -/
  | lineWidth (width : Int)
  /-- No log level has this name. -/
  | logLevel (name : String)
  deriving DecidableEq, Repr

/-- The wording of a settings error. -/
def SettingsError.message : SettingsError → String
  | .family name => s!"Unknown integral family: {name}. Available: {FamilyName.listing}"
  | .workers count => Text.showInt count fun n => s!"Number of workers must be at least 1, got {n}"
  | .lineWidth width => Text.showInt width fun n => s!"Line width must be positive, got {n}"
  | .logLevel name =>
    s!"Unknown log level: {name}. Available: {Text.quoteList (LogLevel.all.map LogLevel.text)}"

namespace Settings

/-- The settings of a run for which nothing is set. -/
def standard : Settings := { lineWidth_pos := defaultWidth_pos, workers_pos := by decide }

/-- The families of some names; the first unknown one is reported. -/
def familiesOf (names : List String) : Except SettingsError (List FamilyName) :=
  names.mapM fun n =>
    match FamilyName.ofText? n with
    | some f => .ok f
    | none => .error (.family n)

/-- The log level of a name in any case. -/
def levelOf (name : String) : Except SettingsError LogLevel :=
  match LogLevel.ofText? (Text.uppered name) with
  | some l => .ok l
  | none => .error (.logLevel (Text.uppered name))

/-- The settings after a change. Families are checked first, then the workers, the line width
and the log level. -/
def updated (s : Settings) (c : SettingsChange) : Except SettingsError Settings := do
  let families ← familiesOf (c.families.getD (s.families.map FamilyName.text))
  let workers := c.workers.getD s.workers
  let lineWidth := c.lineWidth.getD s.lineWidth
  if hw : 0 < workers then
    if hl : 0 < lineWidth then do
      let logLevel ← levelOf (c.logLevel.getD s.logLevel.text)
      .ok {
        outputDir := c.outputDir.getD s.outputDir
        families
        boys := c.boys.getD s.boys
        lineWidth
        continuation := c.continuation.getD s.continuation
        workers
        logDir := c.logDir.getD s.logDir
        logLevel
        lineWidth_pos := hl
        workers_pos := hw }
    else .error (.lineWidth lineWidth)
  else .error (.workers workers)

/-- The settings given by a change of the defaults. -/
def ofChange (c : SettingsChange) : Except SettingsError Settings := standard.updated c

/-- The dialect that a run writes. -/
def dialect (s : Settings) : Except DialectError Dialect :=
  DialectSettings.check { lineWidth := s.lineWidth, continuation := s.continuation }

end Settings

end GaussianIntegrals
