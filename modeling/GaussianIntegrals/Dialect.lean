/-
  Dialects of the generated code: operators, line width and continuation marker, and the
  templates of the branches. A dialect has a positive line width and a marker that is not
  empty.
-/
import GaussianIntegrals.Template.Expand

namespace GaussianIntegrals

/-- The data characters of a wrapped line where nothing else is asked for. -/
def defaultWidth : Int := 79

theorem defaultWidth_pos : 0 < defaultWidth := by decide

/-- The settings of a dialect before they are checked. -/
structure DialectSettings where
  /-- The operator between target and expression. -/
  assignment : String := " = "
  /-- Ends a wrapped line and begins the next one. -/
  continuation : String := "&"
  /-- Data characters of a wrapped line. -/
  lineWidth : Int := defaultWidth
  /-- The variable that the branches test. -/
  switchVariable : String := "l1l2switch"
  /-- The template of the first branch. -/
  firstBranch : String := "if (\x7bvariable\x7d.eq.\x7bcode\x7d) then"
  /-- The template of the branches after it. -/
  nextBranch : String := "else if (\x7bvariable\x7d.eq.\x7bcode\x7d) then"
  /-- The header of the last branch of several. -/
  defaultBranch : String := "else"
  /-- The line that closes the branches. -/
  endBranch : String := "end if"
  /-- The leading index of the matrices of a vector family. -/
  axisIndex : String := "i"
  deriving DecidableEq, Repr

/-- Why settings make no dialect. -/
inductive DialectError where
  /-- The line width is not positive. -/
  | width (value : Int)
  /-- The continuation marker is empty. -/
  | noMarker
  deriving DecidableEq, Repr

/-- The wording of a dialect error. -/
def DialectError.message : DialectError → String
  | .width value => Text.showInt value fun n => s!"Line width must be positive, got {n}"
  | .noMarker => "Continuation marker must not be empty"

/-- A dialect. -/
structure Dialect extends DialectSettings where
  /-- What the templates of the branches can ask of the values in them. -/
  reflection : Template.Reflection := .standard
  lineWidth_pos : 0 < lineWidth
  continuation_ne : continuation ≠ ""

/-- The dialect of some settings. -/
def DialectSettings.check (s : DialectSettings) : Except DialectError Dialect :=
  if hw : 0 < s.lineWidth then
    if hm : s.continuation ≠ "" then .ok { s with lineWidth_pos := hw, continuation_ne := hm }
    else .error .noMarker
  else .error (.width s.lineWidth)

namespace Dialect

/-- The dialect with all settings at their defaults. -/
def standard : Dialect :=
  { ({} : DialectSettings) with lineWidth_pos := defaultWidth_pos, continuation_ne := by decide }

/-- Data characters of a wrapped line. -/
def width (d : Dialect) : Nat := d.lineWidth.toNat

/-- An assignment. -/
def assign (d : Dialect) (target expression : String) : String :=
  target ++ d.assignment ++ expression

/-- The header of the branch at a position among `count` branches. The last of several is
the default branch; any other names the switch variable and its code. -/
def branch (d : Dialect) (code position count : Int) : Except Template.TemplateError String :=
  if position = count - 1 ∧ 1 < count then .ok d.defaultBranch
  else
    Template.expand d.reflection [("variable", .text d.switchVariable), ("code", .integer code)]
      (if position = 0 then d.firstBranch else d.nextBranch)

theorem width_pos (d : Dialect) : 0 < d.width := by
  have h := d.lineWidth_pos
  unfold width
  omega

end Dialect

end GaussianIntegrals
