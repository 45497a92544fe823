/-
  The raw matrix of a family over a pair of shells and its basis matrix as numbers: every
  raw entry expanded and evaluated, and the result re-based, exactly or in machine floats.
-/
import GaussianIntegrals.Family.Basic
import GaussianIntegrals.Log
import GaussianIntegrals.Number.FloatGrid
import GaussianIntegrals.Rebasing.Apply
import GaussianIntegrals.Shell

namespace GaussianIntegrals

/-- Why a family has no matrix over a pair of shells. -/
inductive MatrixError where
  | expansion (cause : ExpansionError)
  | entry (cause : EvalError)
  | rebasing (cause : RebasingError)
  deriving DecidableEq, Repr

/-- The wording of a matrix error. -/
def MatrixError.message : MatrixError → String
  | .expansion cause => cause.message
  | .entry cause => cause.message
  | .rebasing cause => cause.message

/-- The single number of an array that holds just one. -/
def Number.FloatGrid.single? (a : FloatGrid) : Except EvalError Float :=
  if a.entries.size = 1 then .ok (a.entries.getD 0 0) else .error .notScalar

/-- The records of the steps of a computation that stops at its first failure; the failing
step is on record. -/
def recordsUpTo {α : Type} (succeeds : α → Bool) (records : α → List LogRecord) :
    List α → List LogRecord
  | [] => []
  | x :: xs => records x ++ (if succeeds x then recordsUpTo succeeds records xs else [])

/-- The records that a simplification leaves, one for each rule that fires. -/
def ruleRecords (rules : List Rule) (e : Expr) : List LogRecord :=
  (firedRules rules e).map fun n => ⟨.debug, s!"Rule {n} rewrote expression"⟩

namespace Family

/-- The records that the simplification of a raw entry leaves. -/
def entryRecords (f : Family) (o1 o2 : Int) (axis : Option Int) : List LogRecord :=
  match f.expandRaw o1 o2 axis with
  | .ok e => ruleRecords f.rules e
  | .error _ => []

/-- One raw entry; `number` is the last step from the value of its expression. -/
def entryValue {K L : Type} (A : Arithmetic K) (number : K → Except EvalError L)
    (values : String → Option K) (f : Family) (o1 o2 : Int) (axis : Option Int) :
    Except MatrixError L := do
  let e ← (f.expand o1 o2 axis).mapError .expansion
  ((e.eval A values).bind number).mapError .entry

/-- The raw matrix, the row outermost. -/
def rawMatrix {K L : Type} (A : Arithmetic K) (number : K → Except EvalError L)
    (values : String → Option K) (f : Family) (c : ShellPair) (axis : Option Int) :
    Except MatrixError (List (List L)) :=
  (sidePositions c.rawSizes.1).mapM fun o1 => (sidePositions c.rawSizes.2).mapM fun o2 =>
    f.entryValue A number values o1 o2 axis

/-- The exact raw matrix. -/
def exactRaw (f : Family) (values : String → Option Rat) (c : ShellPair) (axis : Option Int) :
    Except MatrixError (List (List Rat)) :=
  f.rawMatrix Expr.exactArithmetic .ok values c axis

/-- The exact basis matrix. -/
def exactBasis (f : Family) (values : String → Option Rat) (c : ShellPair)
    (axis : Option Int) : Except MatrixError (List (List Rat)) := do
  let raw ← f.exactRaw values c axis
  (f.table.applyExact raw c.rawSizes.1 c.rawSizes.2 c.basisSizes.1 c.basisSizes.2).mapError
    .rebasing

/-- The raw matrix in machine floats. -/
def floatRaw (f : Family) (values : String → Option Number.FloatGrid) (c : ShellPair)
    (axis : Option Int) : Except MatrixError Number.FloatGrid := do
  let raw ← f.rawMatrix Number.FloatGrid.arithmetic Number.FloatGrid.single? values c axis
  .ok ⟨[c.rawSizes.1, c.rawSizes.2], raw.flatten.toArray⟩

/-- The basis matrix in machine floats. -/
def floatBasis (f : Family) (values : String → Option Number.FloatGrid) (c : ShellPair)
    (axis : Option Int) : Except MatrixError Number.FloatGrid := do
  let raw ← f.floatRaw values c axis
  (f.table.apply raw c.basisSizes.1 c.basisSizes.2).mapError .rebasing

/-- The records of the raw matrix in machine floats. -/
def floatRawRecords (f : Family) (values : String → Option Number.FloatGrid) (c : ShellPair)
    (axis : Option Int) : List LogRecord :=
  let succeeds := fun (p : Int × Int) =>
    (f.entryValue Number.FloatGrid.arithmetic Number.FloatGrid.single? values p.1 p.2 axis).isOk
  recordsUpTo succeeds (fun p => f.entryRecords p.1 p.2 axis)
    ((sidePositions c.rawSizes.1).flatMap fun o1 =>
      (sidePositions c.rawSizes.2).map fun o2 => (o1, o2))

end Family

end GaussianIntegrals
