/-
  The text of one family over one pair of shells: an assignment for every raw entry and one
  for every entry of the basis block.
-/
import GaussianIntegrals.Expr.Render
import GaussianIntegrals.Family.Values
import GaussianIntegrals.Layout

namespace GaussianIntegrals

/-- Why a pair of shells has no text. -/
inductive CaseError where
  | expansion (cause : ExpansionError)
  | number (cause : Number.NumberError)
  | rebasing (cause : RebasingError)
  deriving DecidableEq, Repr

/-- The wording of a case error. -/
def CaseError.message : CaseError → String
  | .expansion cause => cause.message
  | .number cause => cause.message
  | .rebasing cause => cause.message

/-- The text of a family over a pair of shells, its lines not wrapped. -/
structure CaseText where
  family : String
  pair : ShellPair
  raw : List String
  rebased : List String
  deriving DecidableEq, Repr

/-- The branch of a text, its lines wrapped. -/
def CaseText.branch (d : Dialect) (t : CaseText) : Branch where
  code := t.pair.switchCode
  raw := t.raw.map d.wrap
  rebased := t.rebased.map d.wrap

/-- The branches of some texts. -/
def Dialect.artifactText (d : Dialect) (ts : List CaseText) :
    Except Template.TemplateError String :=
  d.chainText (ts.map (CaseText.branch d))

namespace Family

/-- The assignment of one raw entry. -/
def entryText (f : Family) (d : Dialect) (o1 o2 : Int) (axis : Option Int) :
    Except CaseError String := do
  let e ← (f.expand o1 o2 axis).mapError .expansion
  let label ← (f.rawLabel o1 o2 axis).mapError fun cause => .number (.integer cause)
  .ok (d.assign label (← e.render.mapError .number))

/-- The raw entries of a pair of shells in their order: the axis outermost, then orbital 2,
then orbital 1. -/
def entryOrder (f : Family) (c : ShellPair) : List (Option Int × Int × Int) :=
  f.axes.flatMap fun axis => (sidePositions c.rawSizes.2).flatMap fun o2 =>
    (sidePositions c.rawSizes.1).map fun o1 => (axis, o1, o2)

/-- How the basis entries are written; those of a vector family have the loop index in
front. -/
def cellForm (f : Family) (d : Dialect) : CellForm where
  target := f.basisName
  source := f.rawName
  index := if f.isVector then d.axisIndex else ""
  assignment := d.assignment

/-- The text of the family over a pair of shells. -/
def caseText (f : Family) (c : ShellPair) (d : Dialect) : Except CaseError CaseText := do
  let raw ← (f.entryOrder c).mapM fun (axis, o1, o2) => f.entryText d o1 o2 axis
  let rebased ← (f.table.render (f.cellForm d) c.basisSizes.1 c.basisSizes.2).mapError .rebasing
  .ok ⟨f.name, c, raw, rebased⟩

/-- The records that the making of that text leaves, with what came of it. Up to a first
raw entry that fails, every entry leaves its records. -/
def caseRecords (f : Family) (c : ShellPair) (d : Dialect) (made : Except CaseError CaseText) :
    List LogRecord :=
  let succeeds := fun ((axis, o1, o2) : Option Int × Int × Int) =>
    made.isOk || (f.entryText d o1 o2 axis).isOk
  let start := s!"Generating {f.name} case {c.label} (switch {c.switchCode})"
  let counts := fun (t : CaseText) => s!"{t.raw.length} raw entries, {t.rebased.length} re-based"
  let records := recordsUpTo succeeds (fun (axis, o1, o2) => f.entryRecords o1 o2 axis)
    (f.entryOrder c)
  ⟨.debug, start⟩ :: records ++
    (match made with
    | .ok t => [⟨.debug, s!"{f.name} {c.label}: {counts t} entries"⟩]
    | .error _ => [])

end Family

end GaussianIntegrals
