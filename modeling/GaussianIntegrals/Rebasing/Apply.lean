/-
  Re-basing of numbers: the entries of a block resolved to positions of a raw matrix, and
  their weighted sums, over exact numbers as well as over arrays of machine floats.
-/
import GaussianIntegrals.Index
import GaussianIntegrals.Number.FloatGrid
import GaussianIntegrals.Rebasing.Basic

namespace GaussianIntegrals

/-- A weight and the 0-based position of a raw entry. -/
structure PlacedEntry where
  weight : Int
  row : Nat
  col : Nat
  deriving DecidableEq, Repr

/-- The place of an entry in a matrix with the given numbers of rows and columns. Positions
before the first count from the end. -/
def WeightedEntry.place (rows cols : Nat) (w : WeightedEntry) :
    Except RebasingError PlacedEntry :=
  match position? rows (w.row - 1), position? cols (w.col - 1) with
  | some r, some c => .ok ⟨w.weight, r, c⟩
  | _, _ => .error .outside

/-- There is a machine float for the weight of an entry. -/
def WeightedEntry.hasFloatWeight (w : WeightedEntry) : Bool :=
  (Number.Binary.nearest? w.weight.natAbs 1).isSome

/-- An entry has a place in a matrix with the given numbers of rows and columns, and its weight
is not too large. The place comes first. -/
def WeightedEntry.checkFloat (rows cols : Nat) (w : WeightedEntry) : Except RebasingError Unit :=
  (w.place rows cols).bind fun _ =>
    if w.hasFloatWeight then .ok () else .error .weightTooLarge

/-- A weighted sum over a matrix, in the order of its entries. -/
def weightedSum {K : Type} (zero : K) (addScaled : K → Int → K → K) (entry : Nat → Nat → K)
    (f : List PlacedEntry) : K :=
  f.foldl (fun acc w => addScaled acc w.weight (entry w.row w.col)) zero

namespace RebasingTable

/-- The places of all entries of a block, cell by cell, the row outermost. -/
def placed (t : RebasingTable) (blockRows blockCols : Int) (rows cols : Nat) :
    Except RebasingError (List (List (List PlacedEntry))) :=
  (sidePositions blockRows).mapM fun row => (sidePositions blockCols).mapM fun col => do
    (← t.formula row col).mapM (WeightedEntry.place rows cols)

/-- The exact basis block of a raw matrix. -/
def applyExact (t : RebasingTable) (raw : List (List Rat)) (rows cols : Nat)
    (blockRows blockCols : Int) : Except RebasingError (List (List Rat)) := do
  let entry := fun r c => (raw.getD r []).getD c 0
  let plan ← t.placed blockRows blockCols rows cols
  .ok (plan.map fun cells => cells.map (weightedSum 0 (fun acc w x => acc + w * x) entry))

/-- The basis block of each matrix of an array with the given lengths and entries; the last two
lengths are its matrices'. An array with fewer dimensions has no entry to refer to. -/
def applyBatch {K : Type} (zero : K) (addScaled : K → Int → K → K) (t : RebasingTable)
    (shape : List Nat) (entries : Array K) (blockRows blockCols : Int) :
    Except RebasingError (List Nat × Array K) := do
  if blockRows < 0 ∨ blockCols < 0 then .error .negativeSize
  else
    let batch := shape.take (shape.length - 2)
    let (rows, cols) := match shape.drop (shape.length - 2) with
      | [n, m] => (n, m)
      | _ => (0, 0)
    let plan ← t.placed blockRows blockCols rows cols
    let entry := fun k r c => entries.getD (k * (rows * cols) + r * cols + c) zero
    let one := fun k => plan.flatten.map (weightedSum zero addScaled (entry k))
    .ok (batch ++ [blockRows.toNat, blockCols.toNat],
      ((List.range (Number.FloatGrid.sizeOf batch)).flatMap one).toArray)

/-- All entries of a block can be used with matrices of machine floats. The first one that cannot,
cell by cell, the row outermost, decides why not. -/
def checkFloats (t : RebasingTable) (blockRows blockCols : Int) (rows cols : Nat) :
    Except RebasingError Unit :=
  (sidePositions blockRows).forM fun row => (sidePositions blockCols).forM fun col => do
    (← t.formula row col).forM (WeightedEntry.checkFloat rows cols)

/-- The basis block of each matrix of an array of machine floats. -/
def apply (t : RebasingTable) (raw : Number.FloatGrid) (blockRows blockCols : Int) :
    Except RebasingError Number.FloatGrid := do
  let (rows, cols) := raw.matrixSides
  t.checkFloats blockRows blockCols rows cols
  let (shape, entries) ← t.applyBatch 0 (fun acc w x => acc + Float.ofInt w * x) raw.shape
    raw.entries blockRows blockCols
  .ok ⟨shape, entries⟩

end RebasingTable

end GaussianIntegrals
