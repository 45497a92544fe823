/-
  The table of kinetic energy and momentum integrals against the products of basis functions.
  Its basis functions are those of the nuclear attraction integrals with the orbitals 14 and 15
  exchanged, and 252 of the 256 cells are the products of the combinations of their rows and
  columns. In the other four some entries have a wrong orbital (`kineticSlips`). So a basis
  matrix is `C * R * Cᵀ` only where the slips do not show, and the raw matrices for which this is
  so satisfy four equations (`kineticMomentum_changes_basis_iff`). Others show that the table is
  no change of basis: a symmetric raw matrix can have a basis matrix that is not symmetric
  (`not_exists_kineticMomentum_block`).

  A slip is an entry of the product together with the entry stored in its place. Cells and
  products are compared as multisets of entries, by evaluation; what a slip adds to a basis
  matrix holds of all tables of this kind.
-/
import GaussianIntegrals.Proofs.ChangeOfBasis

namespace GaussianIntegrals

open Combination

/-! ## Tables with slips -/

/-- An entry of a product, and the entry that a cell has in its place. -/
structure Slip where
  meant : WeightedEntry
  stored : WeightedEntry

/-- What a slip adds to the value of a cell. -/
def Slip.deviation (x : ℤ → ℤ → ℚ) (s : Slip) : ℚ :=
  s.stored.weight * x s.stored.row s.stored.col - s.meant.weight * x s.meant.row s.meant.col

theorem sum_deviation (x : ℤ → ℤ → ℚ) (slips : List Slip) :
    (slips.map (Slip.deviation x)).sum =
      Formula.value x (slips.map Slip.stored) - Formula.value x (slips.map Slip.meant) := by
  induction slips with
  | nil => simp [Formula.value]
  | cons s slips ih =>
    simp only [List.map_cons, List.sum_cons, Formula.value_cons, ih, Slip.deviation]
    ring

/-- Every cell is the product of the combinations of its row and of its column, except that the
entries of the slips are exchanged. -/
structure RebasingTable.FactorsBut (t : RebasingTable) (basis : Fin 16 → Combination)
    (slips : Fin 16 → Fin 16 → List Slip) : Prop where
  inRange : ∀ i, (basis i).InRange 20
  perm : ∀ i j, (t.cell i j ++ (slips i j).map Slip.meant).Perm
    (product (basis i) (basis j) ++ (slips i j).map Slip.stored)

namespace RebasingTable.FactorsBut

variable {t : RebasingTable} {basis : Fin 16 → Combination}
  {slips : Fin 16 → Fin 16 → List Slip} (ht : t.FactorsBut basis slips)

include ht

theorem value_cell (x : ℤ → ℤ → ℚ) (i j : Fin 16) :
    (t.cell i j).value x =
      (product (basis i) (basis j)).value x + ((slips i j).map (Slip.deviation x)).sum := by
  have hperm := Formula.value_perm (ht.perm i j) x
  rw [Formula.value_append, Formula.value_append] at hperm
  rw [sum_deviation]
  linear_combination hperm

/-- A basis entry is that of the matrix product and what the slips add. -/
theorem basisMatrix_apply (R : Matrix (Fin 20) (Fin 20) ℚ) (i j : Fin 16) :
    t.basisMatrix R i j =
      (firstRows (coefficientsOf basis) (le_refl 16) * R *
        (firstRows (coefficientsOf basis) (le_refl 16)).transpose) i j +
      ((slips i j).map (Slip.deviation (entryAt R))).sum := by
  rw [RebasingTable.basisMatrix, Matrix.of_apply, ht.value_cell]
  exact congrArg (· + _) (value_product_eq_mul ht.inRange (le_refl 16) (le_refl 16) R i j)

end RebasingTable.FactorsBut

/-! ## Kinetic energy and momentum -/

/-- The orbitals 14 and 15 exchanged. -/
def exchange (orbital : ℤ) : ℤ :=
  if orbital = 14 then 15 else if orbital = 15 then 14 else orbital

/-- A combination of the exchanged orbitals. -/
def Combination.exchanged (r : Combination) : Combination := r.map fun p => (p.1, exchange p.2)

/-- The basis functions of the kinetic energy and momentum integrals. -/
def kineticBasis (i : Fin 16) : Combination := (nuclearBasis i).exchanged

/-- Combinations each of which is orthogonal to all basis functions but its own. -/
def kineticDual (i : Fin 16) : Combination := (nuclearDual i).exchanged

/-- The entries with a wrong orbital. The cells are counted from 0, the orbitals from 1. -/
def kineticSlips : Fin 16 → Fin 16 → List Slip
  | 10, 11 => [⟨⟨-3, 13, 15⟩, ⟨-3, 13, 14⟩⟩]
  | 13, 13 => [⟨⟨9, 14, 13⟩, ⟨9, 15, 13⟩⟩, ⟨⟨9, 14, 14⟩, ⟨9, 15, 14⟩⟩]
  | 13, 14 => [⟨⟨-12, 14, 16⟩, ⟨-12, 15, 16⟩⟩, ⟨⟨3, 14, 18⟩, ⟨3, 15, 18⟩⟩,
      ⟨⟨3, 14, 15⟩, ⟨3, 15, 15⟩⟩]
  | 14, 14 => [⟨⟨1, 15, 18⟩, ⟨1, 14, 18⟩⟩, ⟨⟨1, 15, 15⟩, ⟨1, 14, 15⟩⟩]
  | _, _ => []

theorem factorsBut_kineticMomentum :
    RebasingTable.kineticMomentum.FactorsBut kineticBasis kineticSlips where
  inRange := by decide +kernel
  perm := by decide +kernel

theorem coefficientsOf_kinetic_mul :
    coefficientsOf kineticBasis * (coefficientsOf kineticDual).transpose =
      Matrix.diagonal ![1, 1, 1, 1, 1, 1, 1, 2, 2, 1, 2, 4, 4, 2, 4, 4] := by
  decide +kernel

/-- The rows of the kinetic basis functions are linearly independent. -/
theorem linearIndependent_kineticBasis :
    LinearIndependent ℚ ((coefficientsOf kineticBasis).map (Int.cast : ℤ → ℚ)).row :=
  linearIndependent_of_mul_eq_diagonal coefficientsOf_kinetic_mul (by decide)

/-- What the slips of a cell add to its value. -/
def kineticDeviation (R : Matrix (Fin 20) (Fin 20) ℚ) (i j : Fin 16) : ℚ :=
  ((kineticSlips i j).map (Slip.deviation (entryAt R))).sum

section

variable (R : Matrix (Fin 20) (Fin 20) ℚ)

theorem kineticDeviation_of_nil {i j : Fin 16} (h : kineticSlips i j = []) :
    kineticDeviation R i j = 0 := by
  rw [kineticDeviation, h, List.map_nil, List.sum_nil]

theorem kineticDeviation_10_11 : kineticDeviation R 10 11 = 3 * (R 12 14 - R 12 13) := by
  have hslips : kineticDeviation R 10 11 = -3 * R 12 13 - -3 * R 12 14 := by
    simp [kineticDeviation, kineticSlips, Slip.deviation, entryAt]
  linear_combination hslips

theorem kineticDeviation_13_13 :
    kineticDeviation R 13 13 = 9 * (R 14 12 + R 14 13 - (R 13 12 + R 13 13)) := by
  have hslips : kineticDeviation R 13 13 =
      9 * R 14 12 - 9 * R 13 12 + (9 * R 14 13 - 9 * R 13 13) := by
    simp [kineticDeviation, kineticSlips, Slip.deviation, entryAt]
  linear_combination hslips

theorem kineticDeviation_13_14 :
    kineticDeviation R 13 14 =
      3 * (R 14 17 + R 14 14 - 4 * R 14 15 - (R 13 17 + R 13 14 - 4 * R 13 15)) := by
  have hslips : kineticDeviation R 13 14 =
      -12 * R 14 15 - -12 * R 13 15 +
        (3 * R 14 17 - 3 * R 13 17 + (3 * R 14 14 - 3 * R 13 14)) := by
    simp [kineticDeviation, kineticSlips, Slip.deviation, entryAt]
  linear_combination hslips

theorem kineticDeviation_14_14 :
    kineticDeviation R 14 14 = R 13 17 + R 13 14 - (R 14 17 + R 14 14) := by
  have hslips : kineticDeviation R 14 14 = R 13 17 - R 14 17 + (R 13 14 - R 14 14) := by
    simp [kineticDeviation, kineticSlips, Slip.deviation, entryAt]
  linear_combination hslips

/-- Off the diagonal only two cells have slips. -/
theorem kineticDeviation_of_ne (h1 : kineticDeviation R 10 11 = 0)
    (h2 : kineticDeviation R 13 14 = 0) {i j : Fin 16} (hne : i ≠ j) :
    kineticDeviation R i j = 0 := by
  have hcells : ∀ i j, i ≠ j → kineticSlips i j = [] ∨ (i, j) = (10, 11) ∨ (i, j) = (13, 14) := by
    decide
  obtain hnil | h | h := hcells i j hne
  · exact kineticDeviation_of_nil R hnil
  all_goals
    obtain ⟨rfl, rfl⟩ := Prod.mk.inj h
    assumption

theorem kineticDeviation_eq_zero_iff :
    (∀ i j, kineticDeviation R i j = 0) ↔
      kineticDeviation R 10 11 = 0 ∧ kineticDeviation R 13 13 = 0 ∧
        kineticDeviation R 13 14 = 0 ∧ kineticDeviation R 14 14 = 0 := by
  have hdiagonal : ∀ i, kineticSlips i i = [] ∨ i = 13 ∨ i = 14 := by decide
  refine ⟨fun h => ⟨h _ _, h _ _, h _ _, h _ _⟩, fun ⟨h1, h2, h3, h4⟩ i j => ?_⟩
  by_cases hij : i = j
  · subst hij
    obtain hnil | rfl | rfl := hdiagonal i
    · exact kineticDeviation_of_nil R hnil
    · exact h2
    · exact h4
  · exact kineticDeviation_of_ne R h1 h3 hij

/-- The basis matrix without the slips. -/
def kineticProduct : Matrix (Fin 16) (Fin 16) ℚ :=
  firstRows (coefficientsOf kineticBasis) (le_refl 16) * R *
    (firstRows (coefficientsOf kineticBasis) (le_refl 16)).transpose

theorem basisMatrix_kinetic (i j : Fin 16) :
    RebasingTable.kineticMomentum.basisMatrix R i j =
      kineticProduct R i j + kineticDeviation R i j :=
  factorsBut_kineticMomentum.basisMatrix_apply R i j

theorem basisMatrix_eq_kineticProduct_iff :
    RebasingTable.kineticMomentum.basisMatrix R = kineticProduct R ↔
      ∀ i j, kineticDeviation R i j = 0 := by
  simp only [← Matrix.ext_iff, basisMatrix_kinetic, add_eq_left]

theorem isSymm_basisMatrix_iff (hR : R.IsSymm) :
    (RebasingTable.kineticMomentum.basisMatrix R).IsSymm ↔
      kineticDeviation R 10 11 = 0 ∧ kineticDeviation R 13 14 = 0 := by
  have hproduct : ∀ i j, kineticProduct R i j = kineticProduct R j i := fun i j =>
    ((isSymm_mul_mul_transpose _ hR).apply i j).symm
  constructor
  · intro h
    have hmirror : ∀ i j, kineticSlips j i = [] → kineticDeviation R i j = 0 := by
      intro i j hji
      have hentry := h.apply i j
      rw [basisMatrix_kinetic, basisMatrix_kinetic, kineticDeviation_of_nil R hji,
        hproduct j i] at hentry
      linarith
    exact ⟨hmirror 10 11 rfl, hmirror 13 14 rfl⟩
  · rintro ⟨h1, h2⟩
    refine Matrix.IsSymm.ext fun i j => ?_
    rw [basisMatrix_kinetic, basisMatrix_kinetic, hproduct i j]
    by_cases hij : i = j
    · rw [hij]
    · rw [kineticDeviation_of_ne R h1 h2 hij, kineticDeviation_of_ne R h1 h2 (Ne.symm hij)]

/-- **When the kinetic table changes basis.** At the cells without slips every basis matrix is
`C * R * Cᵀ`. It is so at all cells exactly for the raw matrices with four equal combinations of
entries; if the raw matrix is symmetric, the basis matrix is so exactly when two of them are
equal. -/
theorem kineticMomentum_changes_basis_iff :
    ∃ B : Matrix (Fin 16) (Fin 16) ℚ,
      RebasingTable.kineticMomentum.applyExact (rowsOf R) 20 20 16 16 = .ok (rowsOf B) ∧
      (∀ i j, kineticSlips i j = [] → B i j = kineticProduct R i j) ∧
      (B = kineticProduct R ↔
        R 12 14 = R 12 13 ∧ R 14 12 + R 14 13 = R 13 12 + R 13 13 ∧
        R 14 17 + R 14 14 - 4 * R 14 15 = R 13 17 + R 13 14 - 4 * R 13 15 ∧
        R 13 17 + R 13 14 = R 14 17 + R 14 14) ∧
      (R.IsSymm → (B.IsSymm ↔ R 12 14 = R 12 13 ∧
        R 14 17 + R 14 14 - 4 * R 14 15 = R 13 17 + R 13 14 - 4 * R 13 15)) := by
  have hcell : ∀ {a x y : ℚ}, a ≠ 0 → (a * (x - y) = 0 ↔ x = y) := fun ha => by
    rw [mul_eq_zero, or_iff_right ha, sub_eq_zero]
  refine ⟨_, serves_kineticMomentum.applyExact_eq R, fun i j h => ?_, ?_, fun hR => ?_⟩
  · rw [basisMatrix_kinetic, kineticDeviation_of_nil R h, add_zero]
  · rw [basisMatrix_eq_kineticProduct_iff, kineticDeviation_eq_zero_iff, kineticDeviation_10_11,
      kineticDeviation_13_13, kineticDeviation_13_14, kineticDeviation_14_14,
      hcell three_ne_zero, hcell (by norm_num), hcell three_ne_zero, sub_eq_zero]
  · rw [isSymm_basisMatrix_iff R hR, kineticDeviation_10_11, kineticDeviation_13_14,
      hcell three_ne_zero, hcell three_ne_zero]

end

/-- A symmetric raw matrix that shows the slip in row 11 and column 12. -/
def slipProbe : Matrix (Fin 20) (Fin 20) ℚ := Matrix.single 12 14 1 + Matrix.single 14 12 1

theorem slipProbe_isSymm : slipProbe.IsSymm := by
  rw [slipProbe, Matrix.IsSymm, Matrix.transpose_add, Matrix.transpose_single,
    Matrix.transpose_single, add_comm]

theorem not_isSymm_basisMatrix_slipProbe :
    ¬ (RebasingTable.kineticMomentum.basisMatrix slipProbe).IsSymm := by
  have hne : RebasingTable.kineticMomentum.basisMatrix slipProbe 10 11 ≠
      RebasingTable.kineticMomentum.basisMatrix slipProbe 11 10 := by
    decide +kernel
  exact fun h => hne (h.apply 11 10)

/-- The kinetic table is no change of basis: no matrix `C` gives all basis matrices, as the basis
matrix of a symmetric raw matrix need not be symmetric. -/
theorem not_exists_kineticMomentum_block :
    (¬ ∃ C : Matrix (Fin 16) (Fin 20) ℤ, ∀ R : Matrix (Fin 20) (Fin 20) ℚ,
      RebasingTable.kineticMomentum.applyExact (rowsOf R) 20 20 16 16 =
        .ok (rowsOf (firstRows C (le_refl 16) * R * (firstRows C (le_refl 16)).transpose))) ∧
    slipProbe.IsSymm ∧ ∃ B : Matrix (Fin 16) (Fin 16) ℚ, ¬ B.IsSymm ∧
      RebasingTable.kineticMomentum.applyExact (rowsOf slipProbe) 20 20 16 16 =
        .ok (rowsOf B) := by
  have happly := serves_kineticMomentum.applyExact_eq slipProbe
  refine ⟨?_, slipProbe_isSymm, _, not_isSymm_basisMatrix_slipProbe, happly⟩
  rintro ⟨C, hC⟩
  have heq := rowsOf_injective (Except.ok.inj (happly.symm.trans (hC slipProbe)))
  exact not_isSymm_basisMatrix_slipProbe (heq ▸ isSymm_mul_mul_transpose _ slipProbe_isSymm)

end GaussianIntegrals
