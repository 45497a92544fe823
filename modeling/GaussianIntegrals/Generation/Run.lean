/-
  Runs: the artifacts that settings ask for are composed and written one after another. A
  text is composed before its file is touched, and the first failure ends the run.
-/
import GaussianIntegrals.Generation.Artifact
import GaussianIntegrals.Host

namespace GaussianIntegrals

/-- Why a run ends early. -/
inductive RunError where
  /-- The settings make no dialect. -/
  | dialect (cause : DialectError)
  /-- A family has no text over a pair of shells. -/
  | case (cause : CaseError)
  /-- A branch has no header. -/
  | template (cause : Template.TemplateError)
  /-- A formula of the Boys function has no text. -/
  | boys (cause : Boys.ClosedFormError)
  /-- The output directory cannot be made. -/
  | directory (path : String) (cause : FileError)
  /-- An artifact cannot be written. -/
  | artifact (path : String) (cause : FileError)
  deriving DecidableEq, Repr

/-- The wording of a run error. A path with a null character is no path, and the attempt to
use it is not described. -/
def RunError.message : RunError → String
  | .dialect cause => cause.message
  | .case cause => cause.message
  | .template cause => cause.message
  | .boys cause => cause.message
  | .directory path cause =>
    if cause.fault = .nullCharacter then cause.message
    else s!"Cannot create output directory {path}: {cause.message}"
  | .artifact path cause =>
    if cause.fault = .nullCharacter then cause.message
    else s!"Error opening file {path}: {cause.message}"

section

variable {m : Type → Type} [Monad m] [Host m]

/-- A part of a run in surroundings of its own. -/
abbrev Run (m : Type → Type) (α : Type) : Type := ExceptT RunError m α

/-- A computed value, or the end of the run. -/
def Run.ofExcept {ε α : Type} (cause : ε → RunError) (x : Except ε α) : Run m α :=
  ExceptT.mk (pure (x.mapError cause))

/-- Puts a message on the log. -/
def Run.info (message : String) : Run m Unit := ExceptT.lift (Host.log .info message)

/-- Writes a text to a file and puts its length on the log. -/
def Run.write (path text : String) : Run m Unit := do
  let written ← ExceptT.lift (Host.store path text)
  Run.ofExcept (.artifact path) written
  Run.info s!"Wrote {Path.name path} ({text.length} characters)"

/-- The texts of a family over some pairs of shells. Several workers leave no records of the
single texts. -/
def Family.texts (f : Family) (pairs : List ShellPair) (d : Dialect) (workers : Int) :
    Run m (List CaseText) := do
  Run.info s!"Generating {f.name} integrals for {pairs.length} cases"
  if 1 < workers then
    Run.info s!"Initialized multiprocessing pool with {workers} workers"
  pairs.mapM fun c => do
    let made := f.caseText c d
    unless 1 < workers do
      ExceptT.lift (Host.logAll .debug fun _ => f.caseRecords c d made)
    Run.ofExcept .case made

/-- The text of an artifact. -/
def Artifact.compose (pairs : List ShellPair) (d : Dialect) (workers : Int) :
    Artifact → Run m String
  | .family n => do
    let texts ← Family.texts n.family pairs d workers
    Run.ofExcept .template (d.artifactText texts)
  | .closedForms => Run.ofExcept .boys d.closedFormsText
  | .series => pure d.seriesText

/-- Composes an artifact and writes it to a directory; the result is its path. -/
def Artifact.write (pairs : List ShellPair) (d : Dialect) (workers : Int) (dir : String)
    (a : Artifact) : Run m String := do
  let text ← a.compose pairs d workers
  Run.write (a.path dir) text
  pure (a.path dir)

/-- Writes all artifacts that settings ask for; the result is their paths. -/
def Settings.generate (pairs : List ShellPair) (s : Settings) : Run m (List String) := do
  let d ← Run.ofExcept .dialect s.dialect
  let made ← ExceptT.lift (Host.createDirectories s.outputDir true)
  Run.ofExcept (.directory s.outputDir) made
  let paths ← s.artifacts.mapM (Artifact.write pairs d s.workers s.outputDir)
  Run.info s!"Generation finished: {paths.length} files written to {s.outputDir}"
  pure paths

end

end GaussianIntegrals
