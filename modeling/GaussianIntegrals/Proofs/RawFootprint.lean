/-
  The raw entries that a block of a re-basing table reads. Each entry is read at its own row and
  column (`place_of_pos`), so all of them can be read exactly from the matrices that are as large
  as the extent of the block (`IsExtent.refersWithin_iff`). Therefore re-basing in machine floats
  fails for an entry outside exactly if the extent exceeds the matrix, and otherwise depends on
  the leading rows and columns of the extent only (`rawExtent_footprint`).

  This takes weights for which there is a machine float, that is, of magnitudes below
  `2 ^ 1024 - 2 ^ 970` (`hasFloatWeight_iff`). With a larger weight re-basing always fails, and
  where it comes before an entry outside, it is the weight that is reported
  (`heavyCell_weightTooLarge`).
-/
import GaussianIntegrals.Proofs.Assignments
import GaussianIntegrals.Proofs.BlockLines
import GaussianIntegrals.Proofs.QuotientRounding

namespace GaussianIntegrals

open Number

/-! ## One entry -/

/-- Half a unit above the greatest machine float. -/
def floatBound : ℕ := 2 ^ 1024 - 2 ^ 970

theorem cast_floatBound : (floatBound : ℚ) = (2 ^ 53 - 1 / 2) * 2 ^ greatestExponent := by
  have hbound : floatBound = (2 ^ 54 - 1) * 2 ^ 970 := by
    rw [floatBound, Nat.sub_mul, one_mul, ← pow_add]
  have hunit : (2 : ℚ) ^ greatestExponent = 2 * 2 ^ 970 := by
    rw [← pow_succ']
    exact zpow_natCast 2 971
  rw [hbound, hunit, Nat.cast_mul, Nat.cast_pow, Nat.cast_ofNat]
  generalize (2 : ℚ) ^ 970 = u
  norm_num
  ring

namespace WeightedEntry

theorem hasFloatWeight_iff (w : WeightedEntry) :
    w.hasFloatWeight = true ↔ w.weight.natAbs < floatBound := by
  have hnone := Binary.nearest?_eq_none_iff one_pos (n := w.weight.natAbs)
  rw [Nat.cast_one, div_one, ← cast_floatBound, Nat.cast_le] at hnone
  rw [hasFloatWeight, Option.isSome_iff_ne_none, Ne, hnone, not_le]

/-- The entry is found at its own row and column, not at one counted from the end. -/
def IsDirect (w : WeightedEntry) (rows cols : ℕ) : Prop :=
  ∃ i < rows, ∃ j < cols, w.row = i + 1 ∧ w.col = j + 1 ∧ w.place rows cols = .ok ⟨w.weight, i, j⟩

variable {w : WeightedEntry} {rows cols : ℕ} (hr : 1 ≤ w.row) (hc : 1 ≤ w.col)

include hr hc

theorem place_of_pos : w.place rows cols =
    if w.row ≤ rows ∧ w.col ≤ cols then .ok ⟨w.weight, (w.row - 1).toNat, (w.col - 1).toNat⟩
    else .error .outside := by
  split
  · next h => exact place_eq_ok (mem_sidePositions.2 ⟨hr, h.1⟩) (mem_sidePositions.2 ⟨hc, h.2⟩)
  · next h =>
    by_cases hrow : w.row ≤ rows
    · rw [place, position?_of_nonneg (by omega) (by omega), position?_of_le (by omega) (by omega)]
    · rw [place, position?_of_le (by omega) (by omega)]

theorem isDirect (hrow : w.row ≤ rows) (hcol : w.col ≤ cols) : w.IsDirect rows cols := by
  refine ⟨(w.row - 1).toNat, by omega, (w.col - 1).toNat, by omega, by omega, by omega, ?_⟩
  rw [place_of_pos hr hc, if_pos ⟨hrow, hcol⟩]

theorem checkFloat_eq_ok_iff : w.checkFloat rows cols = .ok () ↔
    (w.row ≤ rows ∧ w.col ≤ cols) ∧ w.weight.natAbs < floatBound := by
  rw [← hasFloatWeight_iff, checkFloat, place_of_pos hr hc]
  split <;> simp_all [Except.bind]

/-- An entry fails for its place or for its weight. -/
theorem of_checkFloat_eq_error {e : RebasingError} (h : w.checkFloat rows cols = .error e) :
    e = .outside ∧ ¬ (w.row ≤ rows ∧ w.col ≤ cols) ∨
      e = .weightTooLarge ∧ ¬ w.weight.natAbs < floatBound := by
  rw [checkFloat, place_of_pos hr hc] at h
  split at h
  · simp only [Except.bind] at h
    split at h
    · cases h
    · next hweight =>
      cases h
      exact .inr ⟨rfl, fun hlt => hweight (w.hasFloatWeight_iff.2 hlt)⟩
  · next hfit =>
    cases h
    exact .inl ⟨rfl, hfit⟩

end WeightedEntry

/-! ## Blocks -/

/-- The sum of a formula in machine floats, from the left. The entries of the matrix are counted
from 0. -/
def Formula.floatSum (entry : ℕ → ℕ → Float) (f : Formula) : Float :=
  f.foldl (fun acc w => acc + Float.ofInt w.weight * entry (w.row - 1).toNat (w.col - 1).toNat) 0

theorem Formula.floatSum_congr {f : Formula} {entry entry' : ℕ → ℕ → Float}
    (h : ∀ w ∈ f, entry (w.row - 1).toNat (w.col - 1).toNat =
      entry' (w.row - 1).toNat (w.col - 1).toNat) : f.floatSum entry = f.floatSum entry' :=
  List.foldl_ext _ _ _ fun acc w hw => by rw [h w hw]

/-- The entry of a matrix of an array, counted from 0. -/
def Number.FloatGrid.matrixEntry? (a : FloatGrid) (k i j : ℕ) : Option Float :=
  a.entries[k * (a.matrixSides.1 * a.matrixSides.2) + i * a.matrixSides.2 + j]?

/-- Two arrays of so many matrices have the same leading rows and columns. -/
def Number.FloatGrid.AgreeOn (a b : FloatGrid) (count : ℕ) (rows cols : ℤ) : Prop :=
  ∀ k < count, ∀ i j : ℕ, i < rows → j < cols → a.matrixEntry? k i j = b.matrixEntry? k i j

theorem Number.FloatGrid.matrixSides_eq {a : FloatGrid} {batch : List ℕ} {rows cols : ℕ}
    (h : a.shape = batch ++ [rows, cols]) : a.matrixSides = (rows, cols) := by
  have hlength : (batch ++ [rows, cols]).length - 2 = batch.length := by simp
  rw [matrixSides, h, hlength, List.drop_left]

namespace RebasingTable

/-- All entries of a block have weights for which there is a machine float. -/
def HasFloatWeights (t : RebasingTable) (d₁ d₂ : ℕ) : Prop :=
  ∀ w, t.Refers d₁ d₂ w → w.weight.natAbs < floatBound

/-- The greatest row and the greatest column of the entries of a block. -/
structure IsExtent (t : RebasingTable) (d₁ d₂ : ℕ) (rows cols : ℤ) : Prop where
  exists_row : ∃ w, t.Refers d₁ d₂ w ∧ w.row = rows
  exists_col : ∃ w, t.Refers d₁ d₂ w ∧ w.col = cols
  le : ∀ w, t.Refers d₁ d₂ w → w.row ≤ rows ∧ w.col ≤ cols

section Entries

variable {t : RebasingTable} {d₁ d₂ n₁ n₂ : ℕ}
  (hpositive : ∀ w, t.Refers d₁ d₂ w → 1 ≤ w.row ∧ 1 ≤ w.col)

include hpositive

theorem refersWithin_iff : t.RefersWithin d₁ d₂ n₁ n₂ ↔
    ∀ w, t.Refers d₁ d₂ w → w.row ≤ n₁ ∧ w.col ≤ n₂ := by
  constructor
  · rintro h w ⟨row, hr, col, hc, f, hf, hw⟩
    have hrange := h row hr col hc f hf w hw
    exact ⟨(mem_sidePositions.1 hrange.1).2, (mem_sidePositions.1 hrange.2).2⟩
  · intro h row hr col hc f hf w hw
    have hrefers : t.Refers d₁ d₂ w := ⟨row, hr, col, hc, f, hf, hw⟩
    exact ⟨mem_sidePositions.2 ⟨(hpositive w hrefers).1, (h w hrefers).1⟩,
      mem_sidePositions.2 ⟨(hpositive w hrefers).2, (h w hrefers).2⟩⟩

/-- The matrices that have all entries of the block are those that are as large as the extent. -/
theorem IsExtent.refersWithin_iff {rows cols : ℤ} (h : t.IsExtent d₁ d₂ rows cols) :
    t.RefersWithin d₁ d₂ n₁ n₂ ↔ rows ≤ n₁ ∧ cols ≤ n₂ := by
  rw [RebasingTable.refersWithin_iff hpositive]
  constructor
  · intro hall
    obtain ⟨w₁, hw₁, rfl⟩ := h.exists_row
    obtain ⟨w₂, hw₂, rfl⟩ := h.exists_col
    exact ⟨(hall w₁ hw₁).1, (hall w₂ hw₂).2⟩
  · exact fun hfit w hw => ⟨(h.le w hw).1.trans hfit.1, (h.le w hw).2.trans hfit.2⟩

variable (hblock : t.HasBlock d₁ d₂)

include hblock

theorem checkFloats_eq_ok_iff : t.checkFloats d₁ d₂ n₁ n₂ = .ok () ↔
    t.RefersWithin d₁ d₂ n₁ n₂ ∧ t.HasFloatWeights d₁ d₂ := by
  have hentry : ∀ w, t.Refers d₁ d₂ w → (w.checkFloat n₁ n₂ = .ok () ↔
      (w.row ≤ n₁ ∧ w.col ≤ n₂) ∧ w.weight.natAbs < floatBound) := fun w hw =>
    WeightedEntry.checkFloat_eq_ok_iff (hpositive w hw).1 (hpositive w hw).2
  rw [refersWithin_iff hpositive, checkFloats, forM_eq_ok_iff]
  constructor
  · intro h
    have hall : ∀ w, t.Refers d₁ d₂ w → w.checkFloat n₁ n₂ = .ok () := by
      rintro w ⟨row, hr, col, hc, f, hf, hw⟩
      have hcell := forM_eq_ok_iff.1 (h row hr) col hc
      rw [hf] at hcell
      exact forM_eq_ok_iff.1 hcell w hw
    exact ⟨fun w hw => ((hentry w hw).1 (hall w hw)).1, fun w hw => ((hentry w hw).1 (hall w hw)).2⟩
  · refine fun ⟨hwithin, hweights⟩ row hr => forM_eq_ok_iff.2 fun col hc => ?_
    obtain ⟨f, hf⟩ := hblock row hr col hc
    rw [hf]
    refine forM_eq_ok_iff.2 fun w hw => ?_
    have hrefers : t.Refers d₁ d₂ w := ⟨row, hr, col, hc, f, hf, hw⟩
    exact (hentry w hrefers).2 ⟨hwithin w hrefers, hweights w hrefers⟩

/-- The check of a block fails for an entry outside or for a weight. -/
theorem of_checkFloats_eq_error {e : RebasingError} (h : t.checkFloats d₁ d₂ n₁ n₂ = .error e) :
    e = .outside ∧ ¬ t.RefersWithin d₁ d₂ n₁ n₂ ∨
      e = .weightTooLarge ∧ ¬ t.HasFloatWeights d₁ d₂ := by
  obtain ⟨row, hr, hrow⟩ := exists_of_forM_eq_error h
  obtain ⟨col, hc, hcell⟩ := exists_of_forM_eq_error hrow
  obtain ⟨f, hf⟩ := hblock row hr col hc
  rw [hf] at hcell
  obtain ⟨w, hw, he⟩ := exists_of_forM_eq_error hcell
  have hrefers : t.Refers d₁ d₂ w := ⟨row, hr, col, hc, f, hf, hw⟩
  rw [refersWithin_iff hpositive]
  rcases WeightedEntry.of_checkFloat_eq_error (hpositive w hrefers).1 (hpositive w hrefers).2 he
    with ⟨rfl, houtside⟩ | ⟨rfl, hweight⟩
  · exact .inl ⟨rfl, fun hall => houtside (hall w hrefers)⟩
  · exact .inr ⟨rfl, fun hall => hweight (hall w hrefers)⟩

end Entries

/-- The extent of a block is that of its entries. -/
theorem exists_isExtent {t : RebasingTable} {d₁ d₂ : ℕ} (hblock : t.HasBlock d₁ d₂)
    {w : WeightedEntry} (hw : t.Refers d₁ d₂ w) :
    ∃ rows cols, t.rawExtent d₁ d₂ = .ok (rows, cols) ∧ t.IsExtent d₁ d₂ rows cols := by
  obtain ⟨w₁, w₂, hw₁, hw₂, hextent⟩ := exists_rawExtent hblock hw
  refine ⟨w₁.row, w₂.col, hextent, ⟨w₁, hw₁, rfl⟩, ⟨w₂, hw₂, rfl⟩, ?_⟩
  rintro w ⟨row, hr, col, hc, f, hf, hw⟩
  obtain ⟨g, hg, hle⟩ := exists_formula_of_rawExtent hextent hr hc
  obtain rfl : f = g := Except.ok.inj (hf.symm.trans hg)
  exact hle w hw

/-! ## Re-basing in machine floats -/

section Apply

variable {t : RebasingTable} {d₁ d₂ : ℕ} {raw : FloatGrid} {batch : List ℕ} {n₁ n₂ : ℕ}
  (hshape : raw.shape = batch ++ [n₁, n₂])

include hshape

theorem apply_eq : t.apply raw d₁ d₂ = (do
    t.checkFloats d₁ d₂ n₁ n₂
    (t.applyBatch 0 (fun acc w x => acc + Float.ofInt w * x) raw.shape raw.entries d₁ d₂).map
      fun basis => ⟨basis.1, basis.2⟩) := by
  rw [apply, FloatGrid.matrixSides_eq hshape]
  dsimp only
  cases t.checkFloats d₁ d₂ n₁ n₂ with
  | error e => rfl
  | ok _ =>
    cases t.applyBatch 0 (fun acc w x => acc + Float.ofInt w * x) raw.shape raw.entries d₁ d₂ <;>
      rfl

/-- The basis block of every matrix holds the sums of the formulas over the entries at their own
rows and columns. -/
theorem apply_eq_ok {formula : ℤ → ℤ → Formula}
    (h : ∀ row ∈ sidePositions d₁, ∀ col ∈ sidePositions d₂,
      t.formula row col = .ok (formula row col) ∧ (formula row col).InRange n₁ n₂)
    (hcheck : t.checkFloats d₁ d₂ n₁ n₂ = .ok ()) :
    t.apply raw d₁ d₂ = .ok ⟨batch ++ [d₁, d₂],
      (batchOf (FloatGrid.sizeOf batch) d₁ d₂ fun k row col =>
        (formula row col).floatSum fun i j => (raw.matrixEntry? k i j).getD 0).toArray⟩ := by
  rw [apply_eq hshape, hcheck, hshape, applyBatch_append, placed_eq_ok h]
  refine congrArg Except.ok (congrArg (FloatGrid.mk _) (congrArg List.toArray ?_))
  refine List.flatMap_congr fun k _ => ?_
  rw [List.map_flatten, map_matrixOf]
  refine congrArg List.flatten (matrixOf_congr fun row _ col _ => ?_)
  rw [weightedSum, List.foldl_map]
  simp only [FloatGrid.matrixEntry?, FloatGrid.matrixSides_eq hshape,
    Array.getD_eq_getD_getElem?]
  rfl

variable (hpositive : ∀ w, t.Refers d₁ d₂ w → 1 ≤ w.row ∧ 1 ≤ w.col) (hblock : t.HasBlock d₁ d₂)

include hpositive hblock

theorem exists_apply_eq_ok_iff : (∃ basis, t.apply raw d₁ d₂ = .ok basis) ↔
    t.RefersWithin d₁ d₂ n₁ n₂ ∧ t.HasFloatWeights d₁ d₂ := by
  rw [← checkFloats_eq_ok_iff hpositive hblock]
  constructor
  · rintro ⟨_, h⟩
    rw [apply_eq hshape] at h
    obtain ⟨_, hcheck, -⟩ := bind_eq_ok.1 h
    exact hcheck
  · intro hcheck
    have hwithin := ((checkFloats_eq_ok_iff hpositive hblock).1 hcheck).1
    choose! f hf using hblock
    exact ⟨_, apply_eq_ok hshape
      (fun row hr col hc => ⟨hf row hr col hc, hwithin row hr col hc _ (hf row hr col hc)⟩) hcheck⟩

theorem of_apply_eq_error {e : RebasingError} (h : t.apply raw d₁ d₂ = .error e) :
    e = .outside ∧ ¬ t.RefersWithin d₁ d₂ n₁ n₂ ∨
      e = .weightTooLarge ∧ ¬ t.HasFloatWeights d₁ d₂ := by
  cases hcheck : t.checkFloats d₁ d₂ n₁ n₂ with
  | ok _ =>
    obtain ⟨_, hbasis⟩ := (exists_apply_eq_ok_iff hshape hpositive hblock).2
      ((checkFloats_eq_ok_iff hpositive hblock).1 hcheck)
    cases hbasis.symm.trans h
  | error e' =>
    rw [apply_eq hshape, hcheck] at h
    cases h
    exact of_checkFloats_eq_error hpositive hblock hcheck

/-- Where all entries can be read, a weight that is too large is reported. -/
theorem apply_eq_weightTooLarge (hwithin : t.RefersWithin d₁ d₂ n₁ n₂)
    (hweights : ¬ t.HasFloatWeights d₁ d₂) : t.apply raw d₁ d₂ = .error .weightTooLarge := by
  cases h : t.apply raw d₁ d₂ with
  | ok basis =>
    exact absurd ((exists_apply_eq_ok_iff hshape hpositive hblock).1 ⟨basis, h⟩).2 hweights
  | error e =>
    rcases of_apply_eq_error hshape hpositive hblock h with ⟨-, houtside⟩ | ⟨rfl, -⟩
    · exact absurd hwithin houtside
    · rfl

/-- What a basis block holds: in each cell the sum of its formula over the raw entries at the rows
and columns of the formula. -/
theorem of_apply_eq_ok {basis : FloatGrid} (h : t.apply raw d₁ d₂ = .ok basis) :
    basis.shape = batch ++ [d₁, d₂] ∧ ∀ k < FloatGrid.sizeOf batch, ∀ i < d₁, ∀ j < d₂, ∀ f,
      t.formula (i + 1) (j + 1) = .ok f → basis.matrixEntry? k i j =
        some (f.floatSum fun r c => (raw.matrixEntry? k r c).getD 0) := by
  have hok := (exists_apply_eq_ok_iff hshape hpositive hblock).1 ⟨basis, h⟩
  choose! formula hformula using hblock
  have hbasis := Except.ok.inj (h.symm.trans (apply_eq_ok hshape (fun row hr col hc =>
    ⟨hformula row hr col hc, hok.1 row hr col hc _ (hformula row hr col hc)⟩)
      ((checkFloats_eq_ok_iff hpositive fun row hr col hc => ⟨_, hformula row hr col hc⟩).2 hok)))
  have hshape' : basis.shape = batch ++ [d₁, d₂] := by rw [hbasis]
  refine ⟨hshape', fun k hk i hi j hj f hf => ?_⟩
  have hr := mem_sidePositions_succ hi
  have hc := mem_sidePositions_succ hj
  obtain rfl : f = formula (i + 1) (j + 1) := Except.ok.inj (hf.symm.trans (hformula _ hr _ hc))
  have hget := getElem?_batchOf (fun k row col => (formula row col).floatSum fun i j =>
    (raw.matrixEntry? k i j).getD 0) hk hr hc
  rw [add_sub_cancel_right, add_sub_cancel_right, Int.toNat_natCast, Int.toNat_natCast] at hget
  rw [FloatGrid.matrixEntry?, FloatGrid.matrixSides_eq hshape', hbasis, List.getElem?_toArray, hget]

end Apply

/-! ## The footprint -/

/-- What the extent of a block says about re-basing arrays of matrices with `n₁` rows and `n₂`
columns in machine floats. -/
structure Footprint (t : RebasingTable) (d₁ d₂ : ℕ) (rows cols : ℤ) : Prop where
  /-- An entry is reported outside exactly if the extent exceeds the matrices. -/
  outside_iff : t.HasFloatWeights d₁ d₂ → ∀ {raw : FloatGrid} {batch : List ℕ} {n₁ n₂ : ℕ},
    raw.shape = batch ++ [n₁, n₂] →
      (t.apply raw d₁ d₂ = .error .outside ↔ n₁ < rows ∨ n₂ < cols)
  ok_iff : ∀ {raw : FloatGrid} {batch : List ℕ} {n₁ n₂ : ℕ}, raw.shape = batch ++ [n₁, n₂] →
    ((∃ basis, t.apply raw d₁ d₂ = .ok basis) ↔
      (rows ≤ n₁ ∧ cols ≤ n₂) ∧ t.HasFloatWeights d₁ d₂)
  error : ∀ {raw : FloatGrid} {batch : List ℕ} {n₁ n₂ : ℕ} {e : RebasingError},
    raw.shape = batch ++ [n₁, n₂] → t.apply raw d₁ d₂ = .error e →
      e = .outside ∧ (n₁ < rows ∨ n₂ < cols) ∨ e = .weightTooLarge ∧ ¬ t.HasFloatWeights d₁ d₂
  /-- Otherwise no row or column is counted from the end. -/
  direct : ∀ {n₁ n₂ : ℕ}, rows ≤ n₁ → cols ≤ n₂ → ∀ w, t.Refers d₁ d₂ w → w.IsDirect n₁ n₂
  value : ∀ {raw basis : FloatGrid} {batch : List ℕ} {n₁ n₂ : ℕ},
    raw.shape = batch ++ [n₁, n₂] → t.apply raw d₁ d₂ = .ok basis →
      basis.shape = batch ++ [d₁, d₂] ∧ ∀ k < FloatGrid.sizeOf batch, ∀ i < d₁, ∀ j < d₂, ∀ f,
        t.formula (i + 1) (j + 1) = .ok f → basis.matrixEntry? k i j =
          some (f.floatSum fun r c => (raw.matrixEntry? k r c).getD 0)
  /-- Matrices of any sizes that agree on the extent have the same basis block. -/
  eq_of_agreeOn : ∀ {raw raw' : FloatGrid} {batch : List ℕ} {n₁ n₂ m₁ m₂ : ℕ},
    raw.shape = batch ++ [n₁, n₂] → raw'.shape = batch ++ [m₁, m₂] →
      rows ≤ n₁ ∧ cols ≤ n₂ → rows ≤ m₁ ∧ cols ≤ m₂ →
        raw.AgreeOn raw' (FloatGrid.sizeOf batch) rows cols → t.apply raw d₁ d₂ = t.apply raw' d₁ d₂

section

variable {t : RebasingTable} {d₁ d₂ : ℕ} {rows cols : ℤ} (hextent : t.IsExtent d₁ d₂ rows cols)
  (hpositive : ∀ w, t.Refers d₁ d₂ w → 1 ≤ w.row ∧ 1 ≤ w.col) (hblock : t.HasBlock d₁ d₂)

include hextent hpositive hblock

theorem apply_eq_of_agreeOn {raw raw' : FloatGrid} {batch : List ℕ} {n₁ n₂ m₁ m₂ : ℕ}
    (hshape : raw.shape = batch ++ [n₁, n₂]) (hshape' : raw'.shape = batch ++ [m₁, m₂])
    (hfit : rows ≤ n₁ ∧ cols ≤ n₂) (hfit' : rows ≤ m₁ ∧ cols ≤ m₂)
    (hagree : raw.AgreeOn raw' (FloatGrid.sizeOf batch) rows cols) :
    t.apply raw d₁ d₂ = t.apply raw' d₁ d₂ := by
  have hwithin := (hextent.refersWithin_iff hpositive).2 hfit
  have hwithin' := (hextent.refersWithin_iff hpositive).2 hfit'
  by_cases hweights : t.HasFloatWeights d₁ d₂
  · have hcheck := (checkFloats_eq_ok_iff hpositive hblock).2 ⟨hwithin, hweights⟩
    have hcheck' := (checkFloats_eq_ok_iff hpositive hblock).2 ⟨hwithin', hweights⟩
    choose! f hf using hblock
    rw [apply_eq_ok hshape (fun row hr col hc =>
        ⟨hf row hr col hc, hwithin row hr col hc _ (hf row hr col hc)⟩) hcheck,
      apply_eq_ok hshape' (fun row hr col hc =>
        ⟨hf row hr col hc, hwithin' row hr col hc _ (hf row hr col hc)⟩) hcheck']
    refine congrArg Except.ok (congrArg (FloatGrid.mk _) (congrArg List.toArray ?_))
    refine List.flatMap_congr fun k hk => congrArg List.flatten ?_
    refine matrixOf_congr fun row hr col hc => ?_
    -- a formula reads inside the extent, where the arrays agree
    refine Formula.floatSum_congr fun w hw => ?_
    have hrefers : t.Refers d₁ d₂ w := ⟨row, hr, col, hc, _, hf row hr col hc, hw⟩
    have hpos := hpositive w hrefers
    have hle := hextent.le w hrefers
    rw [hagree k (List.mem_range.1 hk) _ _ (by omega) (by omega)]
  · rw [apply_eq_weightTooLarge hshape hpositive hblock hwithin hweights,
      apply_eq_weightTooLarge hshape' hpositive hblock hwithin' hweights]

theorem footprint : t.Footprint d₁ d₂ rows cols where
  outside_iff := by
    intro hweights raw batch n₁ n₂ hshape
    have hfit : n₁ < rows ∨ n₂ < cols ↔ ¬ t.RefersWithin d₁ d₂ n₁ n₂ := by
      rw [hextent.refersWithin_iff hpositive]
      omega
    rw [hfit]
    cases h : t.apply raw d₁ d₂ with
    | ok basis =>
      have hok := (exists_apply_eq_ok_iff hshape hpositive hblock).1 ⟨basis, h⟩
      exact iff_of_false (by simp) (not_not.2 hok.1)
    | error e =>
      rcases of_apply_eq_error hshape hpositive hblock h with ⟨rfl, houtside⟩ | ⟨-, hnot⟩
      · exact iff_of_true rfl houtside
      · exact absurd hweights hnot
  ok_iff hshape := by
    rw [exists_apply_eq_ok_iff hshape hpositive hblock, hextent.refersWithin_iff hpositive]
  error hshape h := by
    refine (of_apply_eq_error hshape hpositive hblock h).imp_left fun ⟨he, houtside⟩ => ⟨he, ?_⟩
    rw [hextent.refersWithin_iff hpositive] at houtside
    omega
  direct hrows hcols w hw := WeightedEntry.isDirect (hpositive w hw).1 (hpositive w hw).2
    ((hextent.le w hw).1.trans hrows) ((hextent.le w hw).2.trans hcols)
  value hshape h := of_apply_eq_ok hshape hpositive hblock h
  eq_of_agreeOn := apply_eq_of_agreeOn hextent hpositive hblock

end

end RebasingTable

/-- **The extent of a block is the footprint of re-basing.** Let all cells of a block be in the
table, with at least one entry and with rows and columns counted from 1. Then the block has an
extent. As long as there are machine floats for its weights, re-basing fails for an entry outside
exactly if the extent exceeds the matrices; otherwise every entry is read at its own row and
column, and the result depends on the leading rows and columns of the extent only. -/
theorem rawExtent_footprint (t : RebasingTable) {d₁ d₂ : ℕ} (hblock : t.HasBlock d₁ d₂)
    (hpositive : ∀ w, t.Refers d₁ d₂ w → 1 ≤ w.row ∧ 1 ≤ w.col) (hentry : ∃ w, t.Refers d₁ d₂ w) :
    ∃ rows cols, t.rawExtent d₁ d₂ = .ok (rows, cols) ∧ t.Footprint d₁ d₂ rows cols := by
  obtain ⟨w, hw⟩ := hentry
  obtain ⟨rows, cols, heq, hextent⟩ := RebasingTable.exists_isExtent hblock hw
  exact ⟨rows, cols, heq, RebasingTable.footprint hextent hpositive hblock⟩

/-- A table of two cells. -/
def twoCells : RebasingTable :=
  ⟨"two", "1", [((1, 1), [⟨-2, 1, 1⟩, ⟨1, 2, 2⟩, ⟨-1, 1, 2⟩]), ((1, 2), [⟨0, 2, 1⟩])]⟩

/-- The extent of `twoCells` is two rows and two columns: a matrix with one row is too small for
it, and what stands in a third row or in further columns does not count. -/
theorem rawExtent_footprint_twoCells :
    twoCells.HasBlock 1 2 ∧ (∀ w, twoCells.Refers 1 2 w → 1 ≤ w.row ∧ 1 ≤ w.col) ∧
      (∃ w, twoCells.Refers 1 2 w) ∧ twoCells.rawExtent 1 2 = .ok (2, 2) ∧
      twoCells.apply ⟨[1, 3], #[1, 2, 3]⟩ 1 2 = .error .outside ∧
      (∃ basis, twoCells.apply ⟨[2, 2], #[1, 2, 3, 4]⟩ 1 2 = .ok basis) ∧
      twoCells.apply ⟨[2, 2], #[1, 2, 3, 4]⟩ 1 2 =
        twoCells.apply ⟨[3, 4], #[1, 2, 5, 6, 3, 4, 7, 8, 9, 10, 11, 12]⟩ 1 2 := by
  have hcell : ∀ row ∈ sidePositions (1 : ℕ), ∀ col ∈ sidePositions (2 : ℕ), ∃ f,
      twoCells.formula row col = .ok f ∧
        ∀ w ∈ f, (1 ≤ w.row ∧ 1 ≤ w.col) ∧ w.weight.natAbs ≤ 2 := by
    intro row hr col hc
    rw [mem_sidePositions] at hr hc
    obtain rfl : row = 1 := by omega
    rcases (by omega : col = 1 ∨ col = 2) with rfl | rfl
    · exact ⟨_, rfl, by decide⟩
    · exact ⟨_, rfl, by decide⟩
  have hblock : twoCells.HasBlock 1 2 := fun row hr col hc =>
    (hcell row hr col hc).imp fun _ hf => hf.1
  have hrefers : ∀ w, twoCells.Refers 1 2 w →
      (1 ≤ w.row ∧ 1 ≤ w.col) ∧ w.weight.natAbs ≤ 2 := by
    rintro w ⟨row, hr, col, hc, f, hf, hw⟩
    obtain ⟨g, hg, hall⟩ := hcell row hr col hc
    cases hf.symm.trans hg
    exact hall w hw
  have hpositive := fun w hw => (hrefers w hw).1
  have hweights : twoCells.HasFloatWeights 1 2 := fun w hw =>
    (hrefers w hw).2.trans_lt (by decide +kernel)
  have hentry : ∃ w, twoCells.Refers 1 2 w :=
    ⟨⟨0, 2, 1⟩, 1, by decide, 2, by decide, _, rfl, by decide⟩
  have hextent : twoCells.rawExtent 1 2 = .ok (2, 2) := by decide
  obtain ⟨rows, cols, heq, hfoot⟩ := rawExtent_footprint twoCells hblock hpositive hentry
  obtain ⟨rfl, rfl⟩ := Prod.mk.inj (Except.ok.inj (hextent.symm.trans heq))
  have hnarrow : FloatGrid.shape ⟨[1, 3], #[1, 2, 3]⟩ = [] ++ [1, 3] := rfl
  have htight : FloatGrid.shape ⟨[2, 2], #[1, 2, 3, 4]⟩ = [] ++ [2, 2] := rfl
  have hwide : FloatGrid.shape ⟨[3, 4], #[1, 2, 5, 6, 3, 4, 7, 8, 9, 10, 11, 12]⟩ =
    [] ++ [3, 4] := rfl
  refine ⟨hblock, hpositive, hentry, hextent, ?_, ?_, ?_⟩
  · exact (hfoot.outside_iff hweights hnarrow).2 (by decide)
  · exact (hfoot.ok_iff htight).2 ⟨by decide, hweights⟩
  · refine hfoot.eq_of_agreeOn htight hwide (by decide) (by decide) fun k hk i j hi hj => ?_
    obtain rfl : k = 0 := Nat.lt_one_iff.1 hk
    rcases (by omega : i = 0 ∨ i = 1) with rfl | rfl <;>
      rcases (by omega : j = 0 ∨ j = 1) with rfl | rfl <;>
        simp [FloatGrid.matrixEntry?, FloatGrid.matrixSides]

/-- A cell with a weight that is too large, before an entry outside a single row. -/
def heavyCell : RebasingTable := ⟨"heavy", "1", [((1, 1), [⟨10 ^ 400, 1, 1⟩, ⟨1, 2, 1⟩])]⟩

/-- The extent exceeds the matrix, and yet it is the weight that is reported. -/
theorem heavyCell_weightTooLarge :
    heavyCell.HasBlock 1 1 ∧ (∀ w, heavyCell.Refers 1 1 w → 1 ≤ w.row ∧ 1 ≤ w.col) ∧
      (∃ w, heavyCell.Refers 1 1 w) ∧
      heavyCell.apply ⟨[1, 1], #[1]⟩ 1 1 = .error .weightTooLarge ∧
      ¬ (heavyCell.apply ⟨[1, 1], #[1]⟩ 1 1 = .error .outside ↔
        ∃ rows cols, heavyCell.rawExtent 1 1 = .ok (rows, cols) ∧ (1 < rows ∨ 1 < cols)) := by
  have hformula : heavyCell.formula 1 1 = .ok [⟨10 ^ 400, 1, 1⟩, ⟨1, 2, 1⟩] := rfl
  have hside : ∀ k ∈ sidePositions (1 : ℕ), k = 1 := by decide
  have hcheck : heavyCell.checkFloats (1 : ℕ) (1 : ℕ) 1 1 = .error .weightTooLarge := by
    decide +kernel
  have hshape : FloatGrid.shape ⟨[1, 1], #[1]⟩ = [] ++ [1, 1] := rfl
  have happly : heavyCell.apply ⟨[1, 1], #[1]⟩ (1 : ℕ) (1 : ℕ) = .error .weightTooLarge := by
    rw [RebasingTable.apply_eq hshape, hcheck]
    rfl
  refine ⟨?_, ?_, ?_, happly, ?_⟩
  · intro row hr col hc
    rw [hside row hr, hside col hc]
    exact ⟨_, hformula⟩
  · rintro w ⟨row, hr, col, hc, f, hf, hw⟩
    rw [hside row hr, hside col hc, hformula] at hf
    cases hf
    rcases List.mem_pair.1 hw with rfl | rfl <;> simp
  · exact ⟨⟨1, 2, 1⟩, 1, by decide, 1, by decide, _, hformula, List.mem_pair.2 (.inr rfl)⟩
  · intro h
    have houtside := h.2 ⟨2, 1, rfl, .inl one_lt_two⟩
    cases happly.symm.trans houtside

end GaussianIntegrals
