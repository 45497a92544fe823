/-
  The lines of a block of a re-basing table, and the numbers of the block. The lines run through the
  cells column by column (`getElem?_blockOrder`), while the numbers of a block are stored row by row
  (`getElem?_batchOf`). Of a block of which all cells are in the table the lines decode to the table
  (`linesDecode`) and evaluate to the exact basis block, for each matrix of an array
  (`linesCompute`); of any other block neither text nor numbers are made, and the error names a
  missing cell (`failsAtMissing`).
-/
import GaussianIntegrals.Proofs.CellLines
import GaussianIntegrals.Proofs.ChangeOfBasis

namespace GaussianIntegrals

/-! ## Places in a block -/

theorem mem_sidePositions_succ {d i : ℕ} (h : i < d) : (i : ℤ) + 1 ∈ sidePositions d :=
  mem_sidePositions.2 ⟨by omega, by omega⟩

theorem getElem?_blockOrder {rows cols i j : ℕ} (hi : i < rows) (hj : j < cols) :
    (blockOrder rows cols)[j * rows + i]? = some ((i : ℤ) + 1, (j : ℤ) + 1) := by
  rw [blockOrder, getElem?_flatMap (fun _ _ => by rw [List.length_map, length_sidePositions]) hi,
    getElem?_sidePositions hj, Option.bind_some, List.getElem?_map, getElem?_sidePositions hi,
    Option.map_some]

theorem length_blockOrder (rows cols : ℕ) : (blockOrder rows cols).length = rows * cols := by
  simp [blockOrder, length_sidePositions, Nat.mul_comm]

theorem length_batchOf {K : Type} (count rows cols : ℕ) (x : ℕ → ℤ → ℤ → K) :
    (batchOf count rows cols x).length = count * (rows * cols) := by
  rw [batchOf, List.length_flatMap]
  simp only [length_flatten_matrixOf]
  simp

/-- The entry of a matrix of a batch, by row and column counted from 1; none stands outside. -/
def rawValue? (rows cols : ℕ) (entries : Array ℚ) (k : ℕ) (row col : ℤ) : Option ℚ :=
  if row ∈ sidePositions rows ∧ col ∈ sidePositions cols then
    entries[k * (rows * cols) + (row - 1).toNat * cols + (col - 1).toNat]?
  else none

theorem rawValue?_batchOf {count rows cols : ℕ} (x : ℕ → ℤ → ℤ → ℚ) {k : ℕ} (hk : k < count)
    {row col : ℤ} (hr : row ∈ sidePositions rows) (hc : col ∈ sidePositions cols) :
    rawValue? rows cols (batchOf count rows cols x).toArray k row col = some (x k row col) := by
  rw [rawValue?, if_pos ⟨hr, hc⟩, List.getElem?_toArray, getElem?_batchOf x hk hr hc]

/-- An array of the right length is the batch of its entries. -/
theorem eq_batchOf {count rows cols : ℕ} {entries : Array ℚ}
    (h : entries.size = count * (rows * cols)) :
    entries = (batchOf count rows cols fun k row col =>
      (rawValue? rows cols entries k row col).getD 0).toArray := by
  refine Array.ext (by simpa [length_batchOf] using h) fun p hp _ => ?_
  have hplace : p < count * (rows * cols) := h ▸ hp
  have hmatrix : 0 < rows * cols := Nat.pos_of_lt_mul_left hplace
  have hcols : 0 < cols := Nat.pos_of_mul_pos_left hmatrix
  obtain ⟨k, q, hk, hq, hp'⟩ : ∃ k q, k < count ∧ q < rows * cols ∧ p = k * (rows * cols) + q :=
    ⟨_, _, Nat.div_lt_of_lt_mul (by rwa [Nat.mul_comm]), Nat.mod_lt p hmatrix,
      (Nat.div_add_mod' p _).symm⟩
  obtain ⟨i, j, hi, hj, hq'⟩ : ∃ i j, i < rows ∧ j < cols ∧ q = i * cols + j :=
    ⟨_, _, Nat.div_lt_of_lt_mul (by rwa [Nat.mul_comm]), Nat.mod_lt q hcols,
      (Nat.div_add_mod' q _).symm⟩
  have hr := mem_sidePositions_succ hi
  have hc := mem_sidePositions_succ hj
  have hposition : k * (rows * cols) + ((i : ℤ) + 1 - 1).toNat * cols + ((j : ℤ) + 1 - 1).toNat =
      p := by
    rw [hp', hq', add_sub_cancel_right, add_sub_cancel_right, Int.toNat_natCast, Int.toNat_natCast,
      Nat.add_assoc]
  have hget := getElem?_batchOf (fun k row col => (rawValue? rows cols entries k row col).getD 0)
    hk hr hc
  rw [rawValue?, if_pos ⟨hr, hc⟩, hposition, Array.getElem?_eq_getElem hp, Option.getD_some,
    List.getElem?_eq_some_iff] at hget
  exact hget.2.symm

/-! ## Blocks -/

namespace RebasingTable

variable (t : RebasingTable)

/-- All cells of a block are in the table. -/
def HasBlock (blockRows blockCols : ℕ) : Prop :=
  ∀ row ∈ sidePositions blockRows, ∀ col ∈ sidePositions blockCols, ∃ f, t.formula row col = .ok f

/-- Those cells of a block that are in the table refer to entries of a matrix. -/
def RefersWithin (blockRows blockCols rows cols : ℕ) : Prop :=
  ∀ row ∈ sidePositions blockRows, ∀ col ∈ sidePositions blockCols, ∀ f,
    t.formula row col = .ok f → f.InRange rows cols

/-- The computation fails, and the error names a cell of the block that is not in the table. -/
def FailsAtMissing {α : Type} (blockRows blockCols : ℕ) (x : Except RebasingError α) : Prop :=
  ∃ row ∈ sidePositions blockRows, ∃ col ∈ sidePositions blockCols,
    t.cells.lookup (row, col) = none ∧ x = .error (.missingCell row col t.name)

variable {t} {blockRows blockCols : ℕ}

/-- A computation over a block that goes on as long as cells have formulas. -/
theorem failsAtMissing {α : Type} {x : Except RebasingError α}
    (hblock : ¬ t.HasBlock blockRows blockCols)
    (hok : ∀ a, x = .ok a → t.HasBlock blockRows blockCols)
    (herror : ∀ e, x = .error e → ∃ row ∈ sidePositions blockRows,
      ∃ col ∈ sidePositions blockCols, t.formula row col = .error e) :
    t.FailsAtMissing blockRows blockCols x := by
  cases hx : x with
  | ok a => exact absurd (hok a hx) hblock
  | error e =>
    obtain ⟨row, hr, col, hc, he⟩ := herror e hx
    refine ⟨row, hr, col, hc, ?_⟩
    rw [formula] at he
    split at he
    · cases he
    · next hnone =>
      cases he
      exact ⟨hnone, rfl⟩

/-- All entries that a block refers to are writable. -/
def WritableEntries (t : RebasingTable) (blockRows blockCols : ℕ) : Prop :=
  ∀ row ∈ sidePositions blockRows, ∀ col ∈ sidePositions blockCols, ∀ f,
    t.formula row col = .ok f → f.Writable

section Text

variable (form : CellForm) (hrows : Text.Writable blockRows) (hcols : Text.Writable blockCols)

include hrows hcols

/-- What is too long is reported for a cell that is there, so it must not stand before one that is
missing. -/
theorem render_failsAtMissing (hentries : t.WritableEntries blockRows blockCols)
    (hblock : ¬ t.HasBlock blockRows blockCols) :
    t.FailsAtMissing blockRows blockCols (t.render form blockRows blockCols) := by
  refine failsAtMissing hblock (fun lines hlines row hr col hc => ?_) fun e he => ?_
  · obtain ⟨line, -, hline⟩ :=
      exists_of_mapM_eq_ok hlines (a := (row, col)) (mem_blockOrder.2 ⟨hr, hc⟩)
    obtain ⟨-, f, hf, -⟩ := renderCell_eq_ok_iff.1 hline
    exact ⟨f, hf⟩
  · obtain ⟨⟨row, col⟩, hp, herror⟩ := exists_of_mapM_eq_error he
    obtain ⟨hr, hc⟩ := mem_blockOrder.1 hp
    refine ⟨row, hr, col, hc, ?_⟩
    rcases of_renderCell_eq_error (writable_of_mem_blockOrder hrows hcols hp) herror with
      hnone | ⟨f, hf, hlong, -⟩
    · exact hnone
    · exact absurd (hentries row hr col hc f hf) hlong

theorem render_eq_error_of_not_writable (hblock : t.HasBlock blockRows blockCols)
    (hentries : ¬ t.WritableEntries blockRows blockCols) :
    t.render form blockRows blockCols = .error (.integer .tooLongToWrite) := by
  simp only [WritableEntries, not_forall] at hentries
  obtain ⟨row, hr, col, hc, g, hg, hlong⟩ := hentries
  have hcells := hblock
  choose! f hf using hcells
  obtain rfl : f row col = g := Except.ok.inj ((hf row hr col hc).symm.trans hg)
  exact render_eq_error hrows hcols hf hr hc hlong

end Text

theorem placed_failsAtMissing {rows cols : ℕ} (hblock : ¬ t.HasBlock blockRows blockCols)
    (hrefers : t.RefersWithin blockRows blockCols rows cols) :
    t.FailsAtMissing blockRows blockCols (t.placed blockRows blockCols rows cols) := by
  refine failsAtMissing hblock (fun plan hplan row hr col hc => ?_) fun e he => ?_
  · obtain ⟨cells, -, hcells⟩ := exists_of_mapM_eq_ok hplan hr
    obtain ⟨places, -, hplaces⟩ := exists_of_mapM_eq_ok hcells hc
    obtain ⟨f, hf, -⟩ := bind_eq_ok.1 hplaces
    exact ⟨f, hf⟩
  · obtain ⟨row, hr, hrow⟩ := exists_of_mapM_eq_error he
    obtain ⟨col, hc, herror⟩ := exists_of_mapM_eq_error hrow
    refine ⟨row, hr, col, hc, ?_⟩
    cases hf : t.formula row col with
    | ok f =>
      have hplaces : f.mapM (WeightedEntry.place rows cols) = .ok _ :=
        mapM_eq_ok fun w hw => place_eq_ok (hrefers row hr col hc f hf w hw).1
          (hrefers row hr col hc f hf w hw).2
      rw [hf] at herror
      cases hplaces.symm.trans herror
    | error e' =>
      rw [hf] at herror
      cases herror
      rfl

theorem applyBatch_failsAtMissing {rows cols : ℕ} (hblock : ¬ t.HasBlock blockRows blockCols)
    (hrefers : t.RefersWithin blockRows blockCols rows cols) (batch : List ℕ) (raw : Array ℚ) :
    t.FailsAtMissing blockRows blockCols (t.applyBatch (0 : ℚ) (fun acc w y => acc + w * y)
      (batch ++ [rows, cols]) raw blockRows blockCols) := by
  obtain ⟨row, hr, col, hc, hnone, hplaced⟩ := placed_failsAtMissing hblock hrefers
  refine ⟨row, hr, col, hc, hnone, ?_⟩
  rw [applyBatch_append, hplaced]
  rfl

/-- The lines of a block, column by column, each with its cell and the formula of the cell. -/
structure LinesDecode (t : RebasingTable) (form : CellForm) (blockRows blockCols : ℕ)
    (lines : List String) : Prop where
  render_eq : t.render form blockRows blockCols = .ok lines
  length_eq : lines.length = blockRows * blockCols
  exists_line : ∀ i < blockRows, ∀ j < blockCols, ∃ line f,
    lines[j * blockRows + i]? = some line ∧ t.formula (i + 1) (j + 1) = .ok f ∧
      form.readLine line = some (((i : ℤ) + 1, (j : ℤ) + 1), f)

/-- The basis blocks of a batch, row by row, hold the values that the lines have on the matrices of
the batch. -/
def LinesCompute (t : RebasingTable) (form : CellForm) (blockRows blockCols : ℕ)
    (lines : List String) (batch : List ℕ) (rows cols : ℕ) (raw : Array ℚ) : Prop :=
  ∃ values, t.applyBatch (0 : ℚ) (fun acc w y => acc + w * y) (batch ++ [rows, cols]) raw
      blockRows blockCols = .ok (batch ++ [blockRows, blockCols], values) ∧
    values.size = Number.FloatGrid.sizeOf batch * (blockRows * blockCols) ∧
    ∀ k < Number.FloatGrid.sizeOf batch, ∀ i < blockRows, ∀ j < blockCols, ∃ line x,
      lines[j * blockRows + i]? = some line ∧
        form.lineValue (rawValue? rows cols raw k) line = some x ∧
        values[k * (blockRows * blockCols) + i * blockCols + j]? = some x

section Complete

variable {form : CellForm} (hform : form.HasNames) {f : ℤ → ℤ → Formula}
  (hf : ∀ row ∈ sidePositions blockRows, ∀ col ∈ sidePositions blockCols,
    t.formula row col = .ok (f row col))

theorem getElem?_linesOf (form : CellForm) (f : ℤ → ℤ → Formula) {i j : ℕ} (hi : i < blockRows)
    (hj : j < blockCols) : (linesOf form f blockRows blockCols)[j * blockRows + i]? =
      some (rebasedLine form (f (i + 1) (j + 1)) (i + 1) (j + 1)) := by
  rw [linesOf, List.getElem?_map, getElem?_blockOrder hi hj, Option.map_some]

include hform hf

theorem linesDecode (hrows : Text.Writable blockRows) (hcols : Text.Writable blockCols)
    (hentries : t.WritableEntries blockRows blockCols) :
    t.LinesDecode form blockRows blockCols (linesOf form f blockRows blockCols) where
  render_eq := render_eq_ok hrows hcols hf fun row hr col hc =>
    hentries row hr col hc _ (hf row hr col hc)
  length_eq := by rw [linesOf, List.length_map, length_blockOrder]
  exists_line := fun i hi j hj => ⟨_, _, getElem?_linesOf form f hi hj,
    hf _ (mem_sidePositions_succ hi) _ (mem_sidePositions_succ hj),
    form.readLine_rebasedLine hform _ _ _⟩

theorem linesCompute {batch : List ℕ} {rows cols : ℕ} {raw : Array ℚ}
    (hsize : raw.size = Number.FloatGrid.sizeOf batch * (rows * cols))
    (hrefers : t.RefersWithin blockRows blockCols rows cols) :
    t.LinesCompute form blockRows blockCols (linesOf form f blockRows blockCols) batch rows cols
      raw := by
  have hcell : ∀ row ∈ sidePositions blockRows, ∀ col ∈ sidePositions blockCols,
      t.formula row col = .ok (f row col) ∧ (f row col).InRange rows cols := fun row hr col hc =>
    ⟨hf row hr col hc, hrefers row hr col hc _ (hf row hr col hc)⟩
  let x := fun k row col => (rawValue? rows cols raw k row col).getD 0
  have hraw : raw = (batchOf _ rows cols x).toArray := eq_batchOf hsize
  have happly := applyBatch_eq_ok batch x hcell
  rw [← hraw] at happly
  refine ⟨_, happly, ?_, fun k hk i hi j hj => ⟨_, (f (i + 1) (j + 1)).value (x k),
    getElem?_linesOf form f hi hj, ?_, ?_⟩⟩
  · rw [List.size_toArray, length_batchOf]
  · refine form.lineValue_rebasedLine hform _ _ _ fun w hw => ?_
    obtain ⟨hr, hc⟩ := (hcell _ (mem_sidePositions_succ hi) _ (mem_sidePositions_succ hj)).2 w hw
    conv_lhs => rw [hraw]
    exact rawValue?_batchOf x hk hr hc
  · have hget := getElem?_batchOf (fun k row col => (f row col).value (x k)) hk
      (mem_sidePositions_succ hi) (mem_sidePositions_succ hj)
    rw [add_sub_cancel_right, add_sub_cancel_right, Int.toNat_natCast, Int.toNat_natCast] at hget
    rw [List.getElem?_toArray, hget]

end Complete

end RebasingTable

end GaussianIntegrals
