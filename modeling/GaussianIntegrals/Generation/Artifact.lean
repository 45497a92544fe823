/-
  The artifacts of a run: one for each family, and two with the formulas of the Boys
  function.
-/
import GaussianIntegrals.Boys.ClosedForm
import GaussianIntegrals.Files.Path
import GaussianIntegrals.Generation.Case
import GaussianIntegrals.Settings.Basic

namespace GaussianIntegrals

/-- A file that a run writes. -/
inductive Artifact where
  /-- The integrals of a family. -/
  | family (name : FamilyName)
  /-- The closed forms of the Boys function. -/
  | closedForms
  /-- The series of the Boys function for small arguments. -/
  | series
  deriving DecidableEq, Repr

namespace Artifact

/-- The name of the file. -/
def fileName : Artifact → String
  | .family n => n.family.outputName
  | .closedForms => "gamma"
  | .series => "approx"

/-- The path of the file in a directory. -/
def path (dir : String) (a : Artifact) : String := Path.join dir a.fileName

end Artifact

/-- The two artifacts of the Boys function. -/
def Artifact.boys : List Artifact := [.closedForms, .series]

/-- The artifacts that settings ask for, in order. -/
def Settings.artifacts (s : Settings) : List Artifact :=
  s.families.map .family ++ (if s.boys then Artifact.boys else [])

/-- The closed forms, each wrapped and followed by a blank line. -/
def Dialect.closedFormsText (d : Dialect) : Except Boys.ClosedFormError String := do
  .ok (String.join ((← Boys.closedFormTexts Boys.greatestOrder).map fun t => d.wrap t ++ "\n\n"))

/-- The number of terms of the written series. -/
def Boys.seriesLength : Nat := 7

/-- The series, wrapped and followed by a blank line. -/
def Dialect.seriesText (d : Dialect) : String :=
  d.wrap (Boys.seriesText Boys.seriesLength) ++ "\n\n"

end GaussianIntegrals
