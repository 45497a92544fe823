/-
  Re-basing tables: every cell of the basis matrix as a sum of weighted entries of the raw
  matrix, the text of such a cell, and the raw rows and columns that a block needs.
-/
import GaussianIntegrals.Text.Integer

namespace GaussianIntegrals

/-- A raw entry, by row and column counted from 1, with its integer weight. -/
structure WeightedEntry where
  weight : Int
  row : Int
  col : Int
  deriving DecidableEq, Repr

/-- One entry from its three numbers. -/
def WeightedEntry.ofTriple (w : Int × Int × Int) : WeightedEntry := ⟨w.1, w.2.1, w.2.2⟩

/-- The weighted sum in a cell. -/
abbrev Formula := List WeightedEntry

/-- Why a block of a table has no text, extent or value. -/
inductive RebasingError where
  /-- The table does not have a cell. -/
  | missingCell (row col : Int) (table : String)
  /-- No entry is left to take the extent of. -/
  | emptyBlock
  /-- A raw entry lies outside the raw matrix. -/
  | outside
  /-- A block has a negative side. -/
  | negativeSize
  /-- A weight is too large for a machine float. -/
  | weightTooLarge
  /-- An integer of a line has too many digits. -/
  | integer (cause : Text.IntegerError)
  deriving DecidableEq, Repr

/-- The wording of a re-basing error. -/
def RebasingError.message : RebasingError → String
  | .missingCell row col table =>
    Text.showInt row fun row => Text.showInt col fun col =>
      s!"Basis cell ({row},{col}) not in table {table}"
  | .emptyBlock => "max() arg is an empty sequence"
  | .outside => "index out of bounds"
  | .negativeSize => "negative dimensions are not allowed"
  | .weightTooLarge => "int too large to convert to float"
  | .integer cause => cause.message

/-- A table of cells, each with its basis row and column counted from 1. -/
structure RebasingTable where
  name : String
  version : String
  cells : List ((Int × Int) × Formula)
  deriving Repr

/-- How the assignment of a cell is written. -/
structure CellForm where
  /-- The basis matrix. -/
  target : String := "g"
  /-- The raw matrix. -/
  source : String := "wo"
  /-- A leading index of both matrices; none if empty. -/
  index : String := ""
  /-- The assignment operator; blanks at its end do not count. -/
  assignment : String := " = "
  deriving DecidableEq, Repr

/-- The 1-based positions of a block's side. -/
def sidePositions (size : Int) : List Int :=
  (List.range size.toNat).map fun (k : Nat) => (k : Int) + 1

/-- A matrix entry with an optional leading index, its row and its column as texts. -/
def entryForm (matrix index row col : String) : String :=
  if index.isEmpty then s!"{matrix}({row},{col})" else s!"{matrix}({index},{row},{col})"

/-- A matrix entry with an optional leading index. -/
def entryText (matrix index : String) (row col : Int) : Except Text.IntegerError String := do
  let rowText ← Text.writeInt row
  let colText ← Text.writeInt col
  .ok (entryForm matrix index rowText colText)

/-- The factor in front of a weighted entry; the weights 1 and -1 are not written. -/
def WeightedEntry.factorText (w : WeightedEntry) : Except Text.IntegerError String :=
  if w.weight.natAbs = 1 then .ok "" else do .ok ((← Text.writeInt w.weight.natAbs) ++ "*")

/-- A weighted entry without its sign. -/
def WeightedEntry.magnitudeText (form : CellForm) (w : WeightedEntry) :
    Except Text.IntegerError String := do
  let factor ← w.factorText
  let entry ← entryText form.source form.index w.row w.col
  .ok (factor ++ entry)

/-- The sign of a weighted entry. -/
def WeightedEntry.sign (w : WeightedEntry) : String := if w.weight < 0 then "-" else "+"

/-- A formula from the texts of its entries: the first sign stands at its entry, every further
one between blanks. -/
def formulaForm : List (WeightedEntry × String) → String
  | [] => ""
  | (first, text) :: rest =>
    rest.foldl (fun line p => line ++ " " ++ p.1.sign ++ " " ++ p.2) (" " ++ first.sign ++ text)

/-- The text of a formula. -/
def formulaText (form : CellForm) (f : Formula) : Except Text.IntegerError String := do
  .ok (formulaForm (← f.mapM fun w => do .ok (w, ← w.magnitudeText form)))

namespace RebasingTable

/-- A table of the given rows of cells. -/
def ofRows (name version : String) (rows : List (List (List (Int × Int × Int)))) :
    RebasingTable :=
  { name, version
    cells := rows.zipIdx.flatMap fun (cells, r) => cells.zipIdx.map fun (entries, c) =>
      (((r : Int) + 1, (c : Int) + 1), entries.map WeightedEntry.ofTriple) }

/-- The formula of a cell. -/
def formula (t : RebasingTable) (row col : Int) : Except RebasingError Formula :=
  match t.cells.lookup (row, col) with
  | some f => .ok f
  | none => .error (.missingCell row col t.name)

/-- The assignment of one cell. The cell is written before its formula is looked up. -/
def renderCell (t : RebasingTable) (form : CellForm) (row col : Int) :
    Except RebasingError String := do
  let cell ← (entryText form.target form.index row col).mapError .integer
  let f ← t.formula row col
  let sum ← (formulaText form f).mapError .integer
  .ok (cell ++ Text.strippedEnd form.assignment ++ sum)

/-- The assignments of a block, the column outermost. -/
def render (t : RebasingTable) (form : CellForm) (rows cols : Int) :
    Except RebasingError (List String) :=
  (sidePositions cols).flatMap (fun col => (sidePositions rows).map fun row => (row, col))
    |>.mapM fun cell => t.renderCell form cell.1 cell.2

/-- The formulas of a block, the row outermost. -/
def block (t : RebasingTable) (rows cols : Int) : Except RebasingError (List (List Formula)) :=
  (sidePositions rows).mapM fun row => (sidePositions cols).mapM fun col => t.formula row col

/-- The greatest of some integers. -/
def greatest? : List Int → Option Int
  | [] => none
  | n :: ns => some (ns.foldl max n)

/-- The greatest raw row and column that a block refers to. -/
def rawExtent (t : RebasingTable) (rows cols : Int) : Except RebasingError (Int × Int) := do
  let entries := (← t.block rows cols).flatten.flatten
  match greatest? (entries.map (·.row)), greatest? (entries.map (·.col)) with
  | some row, some col => .ok (row, col)
  | _, _ => .error .emptyBlock

/-- The cells of both tables, sorted, in which the formulas differ; a missing cell counts as
an empty formula. -/
def differences (s t : RebasingTable) : List ((Int × Int) × Formula × Formula) :=
  let before := fun (a b : Int × Int) => decide (a.1 < b.1 ∨ a.1 = b.1 ∧ a.2 ≤ b.2)
  let cells := ((s.cells ++ t.cells).map (·.1) |>.mergeSort before).eraseReps
  (cells.map fun c => (c, (s.cells.lookup c).getD [], (t.cells.lookup c).getD [])).filter
    fun d => d.2.1 != d.2.2

end RebasingTable

end GaussianIntegrals
