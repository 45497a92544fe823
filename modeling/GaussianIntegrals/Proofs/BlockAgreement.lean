/-
  The text of a block of a re-basing table agrees with its numbers. Where all cells are in the
  table, the lines decode to the formulas, their values are the exact basis block, and the sums of
  the decoded formulas in machine floats are what re-basing gives; where a cell is missing, all
  three fail at a missing cell (`rebasing_lines_decode`). Lines need numbers that are not too long
  to be written; one such number among the cells that are there, and the block has no lines.

  The entries of the cells that are there have to lie inside the matrices. Then their rows and
  columns count from 1 (`RefersWithin.pos`), so that the check before re-basing can fail for a
  missing cell or for a weight only. The statements about machine floats therefore take weights for
  which there is one: a larger weight is reported in place of a cell that is missing behind it
  (`heavyCell_before_missing`).
-/
import GaussianIntegrals.Proofs.Lists
import GaussianIntegrals.Proofs.RawFootprint

namespace GaussianIntegrals

open Number

namespace RebasingTable

variable {t : RebasingTable} {form : CellForm} {d₁ d₂ n₁ n₂ : ℕ} {batch : List ℕ} {raw : FloatGrid}

/-! ## Entries of the cells that are there -/

theorem mem_cells_of_formula {row col : ℤ} {f : Formula} (h : t.formula row col = .ok f) :
    ((row, col), f) ∈ t.cells := by
  rw [formula] at h
  split at h
  · next g hg =>
    cases h
    exact mem_of_lookup hg
  · cases h

theorem refersWithin_of_cells (h : ∀ c ∈ t.cells, c.2.InRange n₁ n₂) :
    t.RefersWithin d₁ d₂ n₁ n₂ := fun _ _ _ _ _ hf => h _ (mem_cells_of_formula hf)

theorem hasFloatWeights_of_cells (h : ∀ c ∈ t.cells, ∀ w ∈ c.2, w.weight.natAbs < floatBound) :
    t.HasFloatWeights d₁ d₂ := by
  rintro w ⟨_, _, _, _, f, hf, hw⟩
  exact h _ (mem_cells_of_formula hf) w hw

theorem writableEntries_of_cells (h : ∀ c ∈ t.cells, ∀ w ∈ c.2,
      w.weight.natAbs ≤ 10 ^ 18 ∧ w.row.natAbs ≤ 10 ^ 18 ∧ w.col.natAbs ≤ 10 ^ 18) :
    t.WritableEntries d₁ d₂ := by
  intro row _ col _ f hf w hw
  obtain ⟨hweight, hr, hc⟩ := h _ (mem_cells_of_formula hf) w hw
  exact ⟨Text.writable_of_natAbs_le hweight, Text.writable_of_natAbs_le hr,
    Text.writable_of_natAbs_le hc⟩

theorem RefersWithin.pos (h : t.RefersWithin d₁ d₂ n₁ n₂) :
    ∀ w, t.Refers d₁ d₂ w → 1 ≤ w.row ∧ 1 ≤ w.col := by
  rintro w ⟨row, hr, col, hc, f, hf, hw⟩
  have hrange := h row hr col hc f hf w hw
  exact ⟨(mem_sidePositions.1 hrange.1).1, (mem_sidePositions.1 hrange.2).1⟩

theorem RefersWithin.checkFloat_eq_ok (h : t.RefersWithin d₁ d₂ n₁ n₂)
    (hweights : t.HasFloatWeights d₁ d₂) {w : WeightedEntry} (hw : t.Refers d₁ d₂ w) :
    w.checkFloat n₁ n₂ = .ok () :=
  (WeightedEntry.checkFloat_eq_ok_iff (h.pos w hw).1 (h.pos w hw).2).2
    ⟨(refersWithin_iff h.pos).1 h w hw, hweights w hw⟩

/-! ## Missing cells -/

/-- The check passes the cells that are there, so it stops at a missing one. -/
theorem checkFloats_failsAtMissing (hblock : ¬ t.HasBlock d₁ d₂)
    (hwithin : t.RefersWithin d₁ d₂ n₁ n₂) (hweights : t.HasFloatWeights d₁ d₂) :
    t.FailsAtMissing d₁ d₂ (t.checkFloats d₁ d₂ n₁ n₂) := by
  refine failsAtMissing hblock (fun _ hok row hr col hc => ?_) fun e he => ?_
  · have hrow := forM_eq_ok_iff.1 hok row hr
    obtain ⟨f, hf, -⟩ := bind_eq_ok.1 (forM_eq_ok_iff.1 hrow col hc)
    exact ⟨f, hf⟩
  · obtain ⟨row, hr, hrow⟩ := exists_of_forM_eq_error he
    obtain ⟨col, hc, hcell⟩ := exists_of_forM_eq_error hrow
    refine ⟨row, hr, col, hc, ?_⟩
    cases hf : t.formula row col with
    | ok f =>
      have hentries : f.forM (WeightedEntry.checkFloat n₁ n₂) = .ok () :=
        forM_eq_ok_iff.2 fun w hw =>
          hwithin.checkFloat_eq_ok hweights ⟨row, hr, col, hc, f, hf, hw⟩
      rw [hf] at hcell
      cases hentries.symm.trans hcell
    | error e' =>
      rw [hf] at hcell
      cases hcell
      rfl

theorem apply_failsAtMissing (hshape : raw.shape = batch ++ [n₁, n₂])
    (hblock : ¬ t.HasBlock d₁ d₂) (hwithin : t.RefersWithin d₁ d₂ n₁ n₂)
    (hweights : t.HasFloatWeights d₁ d₂) : t.FailsAtMissing d₁ d₂ (t.apply raw d₁ d₂) := by
  obtain ⟨row, hr, col, hc, hnone, hcheck⟩ := checkFloats_failsAtMissing hblock hwithin hweights
  refine ⟨row, hr, col, hc, hnone, ?_⟩
  rw [apply_eq hshape, hcheck]
  rfl

/-! ## Lines and machine floats -/

/-- The basis blocks of an array of matrices of machine floats, row by row, hold the sums of the
formulas that the lines decode to. -/
def LinesApply (t : RebasingTable) (form : CellForm) (blockRows blockCols : ℕ)
    (lines : List String) (batch : List ℕ) (raw : FloatGrid) : Prop :=
  ∃ basis, t.apply raw blockRows blockCols = .ok basis ∧
    basis.shape = batch ++ [blockRows, blockCols] ∧
    ∀ k < FloatGrid.sizeOf batch, ∀ i < blockRows, ∀ j < blockCols, ∃ line f,
      lines[j * blockRows + i]? = some line ∧
        form.readLine line = some (((i : ℤ) + 1, (j : ℤ) + 1), f) ∧
        basis.matrixEntry? k i j =
          some (f.floatSum fun r c => (raw.matrixEntry? k r c).getD 0)

theorem LinesDecode.linesApply {lines : List String} (h : t.LinesDecode form d₁ d₂ lines)
    (hshape : raw.shape = batch ++ [n₁, n₂]) (hblock : t.HasBlock d₁ d₂)
    (hwithin : t.RefersWithin d₁ d₂ n₁ n₂) (hweights : t.HasFloatWeights d₁ d₂) :
    t.LinesApply form d₁ d₂ lines batch raw := by
  obtain ⟨basis, hbasis⟩ :=
    (exists_apply_eq_ok_iff hshape hwithin.pos hblock).2 ⟨hwithin, hweights⟩
  obtain ⟨hsides, hentry⟩ := of_apply_eq_ok hshape hwithin.pos hblock hbasis
  refine ⟨basis, hbasis, hsides, fun k hk i hi j hj => ?_⟩
  obtain ⟨line, f, hline, hf, hread⟩ := h.exists_line i hi j hj
  exact ⟨line, f, hline, hread, hentry k hk i hi j hj f hf⟩

end RebasingTable

/-- **The lines of a block decode to the table and agree with the basis block.** Of a block of which
all cells are in the table there is one line for each cell, column by column, and a line read back
gives its cell and the formula of the cell, as long as no number of an entry is too long to be
written; then no lines are made. For every array of matrices that have all entries that
the block refers to, the values of the lines on a matrix are the entries of its exact basis block,
and as long as there are machine floats for the weights, re-basing in machine floats gives the sums
of the decoded formulas. Where a cell is missing there are no lines and, under the same conditions
on the cells that are there, no basis block; the error names a missing cell. -/
theorem rebasing_lines_decode (t : RebasingTable) {form : CellForm} (hform : form.HasNames)
    {d₁ d₂ : ℕ} (hd₁ : Text.Writable d₁) (hd₂ : Text.Writable d₂) :
    (t.HasBlock d₁ d₂ → t.WritableEntries d₁ d₂ → ∃ lines, t.LinesDecode form d₁ d₂ lines ∧
      (∀ (batch : List ℕ) (n₁ n₂ : ℕ) (raw : Array ℚ),
        raw.size = FloatGrid.sizeOf batch * (n₁ * n₂) → t.RefersWithin d₁ d₂ n₁ n₂ →
          t.LinesCompute form d₁ d₂ lines batch n₁ n₂ raw) ∧
      (t.HasFloatWeights d₁ d₂ → ∀ (batch : List ℕ) (n₁ n₂ : ℕ) (raw : FloatGrid),
        raw.shape = batch ++ [n₁, n₂] → t.RefersWithin d₁ d₂ n₁ n₂ →
          t.LinesApply form d₁ d₂ lines batch raw)) ∧
    (t.HasBlock d₁ d₂ → ¬ t.WritableEntries d₁ d₂ →
      t.render form d₁ d₂ = .error (.integer .tooLongToWrite)) ∧
    (¬ t.HasBlock d₁ d₂ →
      (t.WritableEntries d₁ d₂ → t.FailsAtMissing d₁ d₂ (t.render form d₁ d₂)) ∧
      (∀ (batch : List ℕ) (n₁ n₂ : ℕ) (raw : Array ℚ), t.RefersWithin d₁ d₂ n₁ n₂ →
        t.FailsAtMissing d₁ d₂ (t.applyBatch (0 : ℚ) (fun acc w y => acc + w * y)
          (batch ++ [n₁, n₂]) raw d₁ d₂)) ∧
      (t.HasFloatWeights d₁ d₂ → ∀ (batch : List ℕ) (n₁ n₂ : ℕ) (raw : FloatGrid),
        raw.shape = batch ++ [n₁, n₂] → t.RefersWithin d₁ d₂ n₁ n₂ →
          t.FailsAtMissing d₁ d₂ (t.apply raw d₁ d₂))) := by
  refine ⟨fun hblock hentries => ?_, fun hblock hlong => ?_, fun hblock => ?_⟩
  · have hcells := hblock
    choose! f hf using hcells
    have hlines := RebasingTable.linesDecode hform hf hd₁ hd₂ hentries
    exact ⟨_, hlines,
      fun _ _ _ _ hsize hwithin => RebasingTable.linesCompute hform hf hsize hwithin,
      fun hweights _ _ _ _ hshape hwithin => hlines.linesApply hshape hblock hwithin hweights⟩
  · exact RebasingTable.render_eq_error_of_not_writable form hd₁ hd₂ hblock hlong
  · exact ⟨fun hentries => RebasingTable.render_failsAtMissing form hd₁ hd₂ hentries hblock,
      fun batch _ _ raw hwithin =>
        RebasingTable.applyBatch_failsAtMissing hblock hwithin batch raw,
      fun hweights _ _ _ _ hshape hwithin =>
        RebasingTable.apply_failsAtMissing hshape hblock hwithin hweights⟩

/-- The lines of both cells with a leading index, for one matrix with two rows and two columns; the
second row of the block is missing. -/
theorem twoCells_lines_decode : CellForm.HasNames ⟨"g", "wo", "i", " = "⟩ ∧
    (Text.Writable (1 : ℕ) ∧ Text.Writable (2 : ℕ)) ∧
    twoCells.HasBlock 1 2 ∧ ¬ twoCells.HasBlock 2 2 ∧
    (∀ d₁ d₂ : ℕ, twoCells.RefersWithin d₁ d₂ 2 2 ∧ twoCells.HasFloatWeights d₁ d₂ ∧
      twoCells.WritableEntries d₁ d₂) ∧
    (∃ lines, twoCells.LinesDecode ⟨"g", "wo", "i", " = "⟩ 1 2 lines ∧
      twoCells.LinesCompute ⟨"g", "wo", "i", " = "⟩ 1 2 lines [] 2 2 #[1, 2, 1 / 3, -4] ∧
      twoCells.LinesApply ⟨"g", "wo", "i", " = "⟩ 1 2 lines [] ⟨[2, 2], #[1, 2, 3, -4]⟩) ∧
    twoCells.FailsAtMissing 2 2 (twoCells.render ⟨"g", "wo", "i", " = "⟩ 2 2) ∧
    twoCells.FailsAtMissing 2 2 (twoCells.apply ⟨[2, 2], #[1, 2, 3, -4]⟩ 2 2) := by
  have hword : ∀ s ∈ ["g", "wo", "i"], IsIdentifier s := by
    have h : ∀ s ∈ ["g", "wo", "i"], Code.isName s.toList = true ∧
        (!s.toList.isEmpty && s.toList.all Code.isWordChar) = true := by decide
    exact fun s hs => ⟨(h s hs).1, Code.isWord_of_all (h s hs).2⟩
  have hform : CellForm.HasNames ⟨"g", "wo", "i", " = "⟩ :=
    ⟨hword _ (by simp), hword _ (by simp), .inr (hword _ (by simp))⟩
  have hblock : twoCells.HasBlock 1 2 := by
    intro row hr col hc
    rw [mem_sidePositions] at hr hc
    obtain rfl : row = 1 := by omega
    rcases (by omega : col = 1 ∨ col = 2) with rfl | rfl
    · exact ⟨_, rfl⟩
    · exact ⟨_, rfl⟩
  have hmissing : ¬ twoCells.HasBlock 2 2 := by
    intro h
    obtain ⟨f, hf⟩ := h 2 (by decide) 1 (by decide)
    cases hf
  have hwithin : ∀ d₁ d₂ : ℕ, twoCells.RefersWithin d₁ d₂ 2 2 := fun _ _ =>
    RebasingTable.refersWithin_of_cells (by unfold Formula.InRange; decide)
  have hweights : ∀ d₁ d₂ : ℕ, twoCells.HasFloatWeights d₁ d₂ := fun _ _ =>
    RebasingTable.hasFloatWeights_of_cells (by decide +kernel)
  have hentries : ∀ d₁ d₂ : ℕ, twoCells.WritableEntries d₁ d₂ := fun _ _ =>
    RebasingTable.writableEntries_of_cells (by decide +kernel)
  have hone : Text.Writable (1 : ℕ) := Text.writable_of_natAbs_le (by decide)
  have htwo : Text.Writable (2 : ℕ) := Text.writable_of_natAbs_le (by decide)
  obtain ⟨lines, hlines, hexact, hfloat⟩ :=
    (rebasing_lines_decode twoCells hform hone htwo).1 hblock (hentries 1 2)
  obtain ⟨hrender, -, happly⟩ := (rebasing_lines_decode twoCells hform htwo htwo).2.2 hmissing
  exact ⟨hform, ⟨hone, htwo⟩, hblock, hmissing,
    fun d₁ d₂ => ⟨hwithin d₁ d₂, hweights d₁ d₂, hentries d₁ d₂⟩,
    ⟨lines, hlines, hexact [] 2 2 _ rfl (hwithin 1 2),
      hfloat (hweights 1 2) [] 2 2 _ rfl (hwithin 1 2)⟩,
    hrender (hentries 2 2), happly (hweights 2 2) [] 2 2 _ rfl (hwithin 2 2)⟩

/-- A weight that is too large is reported although the cell behind it is missing; of the block
without that cell there are lines, but no numbers. With a weight that is too long to be written there
are no lines. -/
theorem heavyCell_before_missing :
    (¬ heavyCell.HasBlock 1 2 ∧ heavyCell.RefersWithin 1 2 2 1 ∧
      heavyCell.apply ⟨[2, 1], #[1, 1]⟩ 1 2 = .error .weightTooLarge ∧
      ¬ heavyCell.FailsAtMissing 1 2 (heavyCell.apply ⟨[2, 1], #[1, 1]⟩ 1 2)) ∧
    (heavyCell.HasBlock 1 1 ∧ heavyCell.RefersWithin 1 1 2 1 ∧
      ¬ ∃ lines, heavyCell.LinesApply ⟨"g", "wo", "", " = "⟩ 1 1 lines [] ⟨[2, 1], #[1, 1]⟩) ∧
    ((RebasingTable.single (10 ^ Text.digitLimit)).HasBlock 1 1 ∧
      ¬ ∃ lines, (RebasingTable.single (10 ^ Text.digitLimit)).LinesDecode ⟨"g", "wo", "", " = "⟩
        1 1 lines) := by
  have hwithin : ∀ d₁ d₂ : ℕ, heavyCell.RefersWithin d₁ d₂ 2 1 := fun _ _ =>
    RebasingTable.refersWithin_of_cells (by unfold Formula.InRange; decide)
  have happly : ∀ d₂ : ℕ, heavyCell.checkFloats (1 : ℕ) d₂ 2 1 = .error .weightTooLarge →
      heavyCell.apply ⟨[2, 1], #[1, 1]⟩ (1 : ℕ) d₂ = .error .weightTooLarge := by
    intro d₂ hcheck
    have hshape : FloatGrid.shape ⟨[2, 1], #[1, 1]⟩ = [] ++ [2, 1] := rfl
    rw [RebasingTable.apply_eq hshape, hcheck]
    rfl
  have htwo := happly 2 (by decide +kernel)
  have hone := happly 1 (by decide +kernel)
  refine ⟨⟨?_, hwithin 1 2, htwo, ?_⟩, ⟨?_, hwithin 1 1, ?_⟩,
    fun row hr col hc => ⟨_, RebasingTable.formula_single hr hc⟩, ?_⟩
  · intro h
    obtain ⟨f, hf⟩ := h 1 (by decide) 2 (by decide)
    cases hf
  · rintro ⟨row, _, col, _, _, hmissing⟩
    cases htwo.symm.trans hmissing
  · intro row hr col hc
    rw [mem_sidePositions] at hr hc
    obtain ⟨rfl, rfl⟩ : row = 1 ∧ col = 1 := by omega
    exact ⟨_, rfl⟩
  · rintro ⟨lines, basis, hbasis, -⟩
    cases hone.symm.trans hbasis
  · rintro ⟨lines, hlines⟩
    cases (RebasingTable.render_single _ Text.not_writable_pow).symm.trans hlines.render_eq

end GaussianIntegrals
