/-
  Which basis functions are harmonic. Where the entries of a raw matrix are the values of
  functionals at the Laplacians of the orbitals, the basis entries of a table of products are
  their values at the Laplacians of the basis functions (`mul_laplaceMatrix_mul`), so they are 0
  where the basis functions are harmonic.

  With the order of the orbitals as it is, the Laplacians of the basis functions 11, 12, 14 and 15
  of the nuclear table are multiples of `z - x` (`laplacian_nuclear`); with the orbitals 14 and 15
  exchanged they are all 0 (`nuclear_exchanged`). Those of the kinetic table are 0, and only its
  slips remain (`kinetic_column`, `kinetic_row`). So the tables give 0 for some functionals only
  (`rebased_laplaceMatrix_eq_zero_iff`).
-/
import GaussianIntegrals.Proofs.KineticBasis
import Mathlib

namespace GaussianIntegrals

open MvPolynomial

/-! ## Polynomials of the triads -/

/-- A polynomial in x, y and z. -/
abbrev SpacePolynomial := MvPolynomial Axis ℚ

namespace Triad

/-- The exponents of the monomial; those below 0 count as 0. -/
noncomputable def exponents (t : Triad) : Axis →₀ ℕ :=
  Finsupp.single .x t.l.toNat + Finsupp.single .y t.m.toNat + Finsupp.single .z t.n.toNat

theorem exponents_apply (t : Triad) (a : Axis) : t.exponents a = (t.on a).toNat := by
  cases a <;> simp [exponents, on]

/-- The monomial `x ^ l * y ^ m * z ^ n`. -/
noncomputable def monomial (t : Triad) : SpacePolynomial := MvPolynomial.monomial t.exponents 1

theorem exponents_shift (t : Triad) (a : Axis) :
    (t.shift (-2) a).exponents = t.exponents - Finsupp.single a 1 - Finsupp.single a 1 := by
  ext b
  simp only [Finsupp.tsub_apply, exponents_apply]
  by_cases hab : a = b
  · subst hab
    rw [on_shift_self, Finsupp.single_eq_same]
    omega
  · rw [on_shift_of_ne t _ hab, Finsupp.single_eq_of_ne (Ne.symm hab)]
    omega

theorem pderiv_pderiv_monomial {t : Triad} {a : Axis} (h : 0 ≤ t.on a) :
    pderiv a (pderiv a t.monomial) =
      ((t.on a * (t.on a - 1) : ℤ) : ℚ) • (t.shift (-2) a).monomial := by
  obtain ⟨e, he⟩ := Int.eq_ofNat_of_zero_le h
  have hexp : t.exponents a = e := by rw [exponents_apply, he, Int.toNat_natCast]
  rw [monomial, monomial, pderiv_monomial, pderiv_monomial, exponents_shift, smul_monomial,
    Finsupp.tsub_apply, Finsupp.single_eq_same, hexp, he]
  congr 1
  cases e with
  | zero => simp
  | succ e => push_cast; simp

end Triad

/-- The sum of the second derivatives on the three axes. -/
noncomputable def laplacian : SpacePolynomial →ₗ[ℚ] SpacePolynomial :=
  (Axis.all.map fun a => (pderiv a).toLinearMap ∘ₗ (pderiv a).toLinearMap).sum

/-- The coefficient of a monomial in the Laplacian of another one. -/
def laplaceCoefficient (t s : Triad) : ℤ :=
  (Axis.all.map fun a => if t.shift (-2) a = s then t.on a * (t.on a - 1) else 0).sum

theorem laplacian_monomial {t : Triad} (h : ∀ a, 0 ≤ t.on a) :
    laplacian t.monomial = (Axis.all.map fun a =>
      ((t.on a * (t.on a - 1) : ℤ) : ℚ) • (t.shift (-2) a).monomial).sum := by
  simp [laplacian, Axis.all, Triad.pderiv_pderiv_monomial (h _)]

/-! ## Laplacians of the orbitals -/

/-- The triad of an orbital, counted from 0. -/
def orbitalTriad (k : Fin 20) : Triad := (Triad.ofOrbital (k + 1)).toOption.getD ⟨0, 0, 0⟩

/-- Every one of the twenty orbitals has a triad. -/
example : ∀ k : Fin 20, Triad.ofOrbital (k + 1) = .ok (orbitalTriad k) := by decide

/-- The orbitals of the first two shells; the Laplacians are combinations of them. -/
def lowTriad (j : Fin 4) : Triad := orbitalTriad (j.castLE (by decide))

theorem laplacian_orbital (k : Fin 20) :
    laplacian (orbitalTriad k).monomial =
      ∑ j, (laplaceCoefficient (orbitalTriad k) (lowTriad j) : ℚ) • (lowTriad j).monomial := by
  have hnonneg : ∀ k a, 0 ≤ (orbitalTriad k).on a := by
    intro k a
    revert k
    cases a <;> decide
  have hlow : ∀ k a, (orbitalTriad k).on a * ((orbitalTriad k).on a - 1) = 0 ∨
      ∃ j, (orbitalTriad k).shift (-2) a = lowTriad j := by
    intro k a
    revert k
    cases a <;> decide
  have hinj : ∀ i j, lowTriad i = lowTriad j → i = j := by decide
  have hterm : ∀ a, (((orbitalTriad k).on a * ((orbitalTriad k).on a - 1) : ℤ) : ℚ) •
      ((orbitalTriad k).shift (-2) a).monomial =
      ∑ j, ((if (orbitalTriad k).shift (-2) a = lowTriad j then
        (orbitalTriad k).on a * ((orbitalTriad k).on a - 1) else 0 : ℤ) : ℚ) •
          (lowTriad j).monomial := by
    intro a
    obtain hzero | ⟨i, hi⟩ := hlow k a
    · simp [hzero]
    · rw [hi, Finset.sum_eq_single i]
      · rw [if_pos rfl]
      · intro j _ hne
        rw [if_neg fun heq => hne (hinj _ _ heq).symm, Int.cast_zero, zero_smul]
      · exact fun hmem => absurd (Finset.mem_univ i) hmem
  rw [laplacian_monomial (hnonneg k)]
  simp only [Axis.all, List.map_cons, List.map_nil, List.sum_cons, List.sum_nil, hterm,
    laplaceCoefficient, Int.cast_add, add_smul, Finset.sum_add_distrib, Int.cast_zero, zero_smul,
    Finset.sum_const_zero]

theorem lowTriad_one : (lowTriad 1).monomial = X .x := by
  have h : (lowTriad 1).exponents = Finsupp.single .x 1 := by
    ext a
    cases a <;> simp [Triad.exponents_apply] <;> decide
  rw [Triad.monomial, h, X]

theorem lowTriad_three : (lowTriad 3).monomial = X .z := by
  have h : (lowTriad 3).exponents = Finsupp.single .z 1 := by
    ext a
    cases a <;> simp [Triad.exponents_apply] <;> decide
  rw [Triad.monomial, h, X]

/-- An orbital whose Laplacian is a multiple of a single low orbital. -/
theorem laplacian_orbital_single {k : Fin 20} {i : Fin 4} {a : ℤ}
    (h : ∀ j, laplaceCoefficient (orbitalTriad k) (lowTriad j) = if j = i then a else 0) :
    laplacian (orbitalTriad k).monomial = (a : ℚ) • (lowTriad i).monomial := by
  rw [laplacian_orbital, Finset.sum_eq_single i]
  · rw [h, if_pos rfl]
  · intro j _ hne
    rw [h, if_neg hne, Int.cast_zero, zero_smul]
  · exact fun hmem => absurd (Finset.mem_univ i) hmem

/-! ## Basis functions -/

section Basis

variable (C : Matrix (Fin 16) (Fin 20) ℤ) (number : Fin 20 → Fin 20)
  (ψ : Fin 20 → SpacePolynomial →ₗ[ℚ] ℚ)

/-- A basis function as a polynomial; the orbitals are renumbered. -/
noncomputable def basisFunction (i : Fin 16) : SpacePolynomial :=
  ∑ c, (C i c : ℚ) • (orbitalTriad (number c)).monomial

/-- The functional of a basis function, the combination of those of the orbitals. -/
noncomputable def basisFunctional (i : Fin 16) : SpacePolynomial →ₗ[ℚ] ℚ :=
  ∑ c, (C i c : ℚ) • ψ c

/-- The coefficient of a low orbital in the Laplacian of a basis function. -/
def basisLaplace (i : Fin 16) (j : Fin 4) : ℤ :=
  ∑ c, C i c * laplaceCoefficient (orbitalTriad (number c)) (lowTriad j)

theorem laplacian_basisFunction (i : Fin 16) :
    laplacian (basisFunction C number i) =
      ∑ j, (basisLaplace C number i j : ℚ) • (lowTriad j).monomial := by
  simp only [basisFunction, map_sum, map_smul, laplacian_orbital, Finset.smul_sum, smul_smul]
  rw [Finset.sum_comm]
  simp only [basisLaplace, Int.cast_sum, Int.cast_mul, Finset.sum_smul]

theorem laplacian_basisFunction_eq_zero {i : Fin 16} (h : ∀ j, basisLaplace C number i j = 0) :
    laplacian (basisFunction C number i) = 0 := by
  rw [laplacian_basisFunction]
  exact Finset.sum_eq_zero fun j _ => by rw [h j, Int.cast_zero, zero_smul]

/-- The raw matrix of functionals at the Laplacians of the orbitals, a row for each functional. -/
noncomputable def laplaceMatrix : Matrix (Fin 20) (Fin 20) ℚ :=
  Matrix.of fun r c => ψ r (laplacian (orbitalTriad (number c)).monomial)

/-- A change of basis turns functionals at Laplacians of orbitals into functionals at Laplacians
of basis functions. -/
theorem mul_laplaceMatrix_mul (i j : Fin 16) :
    (firstRows C (le_refl 16) * laplaceMatrix number ψ *
        (firstRows C (le_refl 16)).transpose) i j =
      basisFunctional C ψ i (laplacian (basisFunction C number j)) := by
  rw [Matrix.mul_assoc, Matrix.mul_apply, basisFunctional, LinearMap.sum_apply]
  refine Finset.sum_congr rfl fun k _ => congrArg (_ * ·) ?_
  rw [Matrix.mul_apply, basisFunction, map_sum, map_sum]
  refine Finset.sum_congr rfl fun c _ => ?_
  rw [map_smul, map_smul, smul_eq_mul, mul_comm]
  rfl

theorem mul_laplaceMatrix_mul_eq_zero (h : ∀ i j, basisLaplace C number i j = 0) :
    firstRows C (le_refl 16) * laplaceMatrix number ψ *
      (firstRows C (le_refl 16)).transpose = 0 := by
  ext i j
  rw [mul_laplaceMatrix_mul, laplacian_basisFunction_eq_zero C number (h j), map_zero,
    Matrix.zero_apply]

end Basis

/-! ## The nuclear table -/

section Nuclear

variable (ψ : Fin 20 → SpacePolynomial →ₗ[ℚ] ℚ)

/-- How far a basis function of the nuclear table is from a harmonic one. -/
def drift (j : Fin 16) : ℤ := basisLaplace (coefficientsOf nuclearBasis) id j 3

theorem drift_eq_zero_iff (j : Fin 16) : drift j = 0 ↔ j ∉ [10, 11, 13, 14] := by
  revert j
  decide +kernel

theorem laplacian_nuclear (j : Fin 16) :
    laplacian (basisFunction (coefficientsOf nuclearBasis) id j) =
      (drift j : ℚ) • (X .z - X .x) := by
  have hother : ∀ j, basisLaplace (coefficientsOf nuclearBasis) id j 0 = 0 ∧
      basisLaplace (coefficientsOf nuclearBasis) id j 1 = -drift j ∧
      basisLaplace (coefficientsOf nuclearBasis) id j 2 = 0 := by
    decide +kernel
  obtain ⟨h0, h1, h2⟩ := hother j
  rw [laplacian_basisFunction, Fin.sum_univ_four, h0, h1, h2, lowTriad_one, lowTriad_three, drift]
  push_cast
  module

theorem nuclear_column (i j : Fin 16) :
    RebasingTable.nuclear.basisMatrix (laplaceMatrix id ψ) i j =
      drift j * basisFunctional (coefficientsOf nuclearBasis) ψ i (X .z - X .x) := by
  rw [factors_nuclear.basisMatrix_eq, mul_laplaceMatrix_mul, laplacian_nuclear, map_smul,
    smul_eq_mul]

theorem nuclear_column_eq_zero_iff :
    RebasingTable.nuclear.basisMatrix (laplaceMatrix id ψ) = 0 ↔
      ∀ i, basisFunctional (coefficientsOf nuclearBasis) ψ i (X .z) =
        basisFunctional (coefficientsOf nuclearBasis) ψ i (X .x) := by
  simp only [← Matrix.ext_iff, nuclear_column, Matrix.zero_apply, mul_eq_zero, Int.cast_eq_zero,
    map_sub, sub_eq_zero]
  have hdrift : drift 10 ≠ 0 := fun h => (drift_eq_zero_iff 10).1 h (by decide)
  exact ⟨fun h i => (h i 10).resolve_left hdrift, fun h i j => Or.inr (h i)⟩

theorem nuclear_row_eq_zero_iff :
    RebasingTable.nuclear.basisMatrix (laplaceMatrix id ψ).transpose = 0 ↔
      ∀ i, basisFunctional (coefficientsOf nuclearBasis) ψ i (X .z) =
        basisFunctional (coefficientsOf nuclearBasis) ψ i (X .x) := by
  rw [← nuclear_column_eq_zero_iff, factors_nuclear.basisMatrix_eq,
    factors_nuclear.basisMatrix_eq, mul_transpose_mul_transpose, Matrix.transpose_eq_zero]

/-- The orbitals 14 and 15 exchanged, counted from 0. -/
def exchangedNumber (k : Fin 20) : Fin 20 :=
  ⟨if k.val = 13 then 14 else if k.val = 14 then 13 else k.val, by split_ifs <;> omega⟩

/-- With two orbitals exchanged the basis functions of the nuclear table are all harmonic. -/
theorem nuclear_exchanged :
    RebasingTable.nuclear.basisMatrix (laplaceMatrix exchangedNumber ψ) = 0 :=
  (factors_nuclear.basisMatrix_eq _).trans
    (mul_laplaceMatrix_mul_eq_zero _ _ ψ (by decide +kernel))

end Nuclear

/-! ## The kinetic table -/

section Kinetic

variable (ψ : Fin 20 → SpacePolynomial →ₗ[ℚ] ℚ)

/-- Without the slips the basis functions are all harmonic. -/
theorem kineticProduct_laplaceMatrix : kineticProduct (laplaceMatrix id ψ) = 0 :=
  mul_laplaceMatrix_mul_eq_zero _ _ ψ (by decide +kernel)

theorem kinetic_column (i j : Fin 16) :
    RebasingTable.kineticMomentum.basisMatrix (laplaceMatrix id ψ) i j =
      kineticDeviation (laplaceMatrix id ψ) i j := by
  rw [basisMatrix_kinetic, kineticProduct_laplaceMatrix, Matrix.zero_apply, zero_add]

theorem kinetic_row (i j : Fin 16) :
    RebasingTable.kineticMomentum.basisMatrix (laplaceMatrix id ψ).transpose i j =
      kineticDeviation (laplaceMatrix id ψ).transpose i j := by
  have hproduct : kineticProduct (laplaceMatrix id ψ).transpose = 0 := by
    rw [kineticProduct, mul_transpose_mul_transpose, ← kineticProduct,
      kineticProduct_laplaceMatrix, Matrix.transpose_zero]
  rw [basisMatrix_kinetic, hproduct, Matrix.zero_apply, zero_add]

/-- The raw entries that the slips use. -/
theorem laplaceMatrix_columns (r : Fin 20) :
    laplaceMatrix id ψ r 12 = 2 * ψ r (X .z) ∧ laplaceMatrix id ψ r 13 = 2 * ψ r (X .z) ∧
      laplaceMatrix id ψ r 14 = 2 * ψ r (X .x) ∧ laplaceMatrix id ψ r 15 = 2 * ψ r (X .x) ∧
      laplaceMatrix id ψ r 17 = 6 * ψ r (X .x) := by
  have hentry : ∀ (c : Fin 20) (i : Fin 4) (a : ℤ),
      (∀ j, laplaceCoefficient (orbitalTriad c) (lowTriad j) = if j = i then a else 0) →
      laplaceMatrix id ψ r c = a * ψ r (lowTriad i).monomial := by
    intro c i a h
    rw [laplaceMatrix, Matrix.of_apply, id, laplacian_orbital_single h, map_smul, smul_eq_mul]
  rw [← lowTriad_one, ← lowTriad_three]
  exact ⟨hentry 12 3 2 (by decide), hentry 13 3 2 (by decide), hentry 14 1 2 (by decide),
    hentry 15 1 2 (by decide), hentry 17 1 6 (by decide)⟩

theorem kinetic_column_eq_zero_iff :
    RebasingTable.kineticMomentum.basisMatrix (laplaceMatrix id ψ) = 0 ↔
      ψ 12 (X .z) = ψ 12 (X .x) ∧ ψ 13 (X .z) = ψ 14 (X .z) ∧ ψ 13 (X .x) = ψ 14 (X .x) := by
  have hzero : RebasingTable.kineticMomentum.basisMatrix (laplaceMatrix id ψ) = 0 ↔
      ∀ i j, kineticDeviation (laplaceMatrix id ψ) i j = 0 := by
    simp only [← Matrix.ext_iff, kinetic_column, Matrix.zero_apply]
  rw [hzero, kineticDeviation_eq_zero_iff, kineticDeviation_10_11, kineticDeviation_13_13,
    kineticDeviation_13_14, kineticDeviation_14_14]
  simp only [laplaceMatrix_columns]
  constructor
  · rintro ⟨h1, h2, -, h4⟩
    exact ⟨by linarith, by linarith, by linarith⟩
  · rintro ⟨h1, h2, h3⟩
    exact ⟨by rw [h1]; ring, by rw [h2]; ring, by rw [h3]; ring, by rw [h3]; ring⟩

theorem kinetic_row_eq_zero_iff :
    RebasingTable.kineticMomentum.basisMatrix (laplaceMatrix id ψ).transpose = 0 ↔
      ψ 13 (X .z) = ψ 14 (X .z) ∧ (ψ 12 + ψ 13) (X .z) = (ψ 12 + ψ 13) (X .x) ∧
        ψ 15 (X .z) = ψ 15 (X .x) ∧ (ψ 14 + ψ 17) (X .z) = (ψ 14 + ψ 17) (X .x) := by
  have hzero : RebasingTable.kineticMomentum.basisMatrix (laplaceMatrix id ψ).transpose = 0 ↔
      ∀ i j, kineticDeviation (laplaceMatrix id ψ).transpose i j = 0 := by
    simp only [← Matrix.ext_iff, kinetic_row, Matrix.zero_apply]
  rw [hzero, kineticDeviation_eq_zero_iff, kineticDeviation_10_11, kineticDeviation_13_13,
    kineticDeviation_13_14, kineticDeviation_14_14]
  simp only [Matrix.transpose_apply, laplaceMatrix_columns, LinearMap.add_apply]
  constructor
  · rintro ⟨h1, h2, h3, h4⟩
    exact ⟨by linarith, by linarith, by linarith, by linarith⟩
  · rintro ⟨h1, h2, h3, h4⟩
    exact ⟨by linarith, by linarith, by linarith, by linarith⟩

end Kinetic

/-! ## Both tables -/

/-- **When the basis functions are harmonic.** All cells of the nuclear table are 0 exactly when
the functionals of all basis functions are equal at `z` and `x`, those of the kinetic table when
some functionals of orbitals are equal there. -/
theorem rebased_laplaceMatrix_eq_zero_iff (ψ : Fin 20 → SpacePolynomial →ₗ[ℚ] ℚ) :
    (RebasingTable.nuclear.applyExact (rowsOf (laplaceMatrix id ψ)) 20 20 16 16 =
        .ok (rowsOf (0 : Matrix (Fin 16) (Fin 16) ℚ)) ↔
      ∀ i, basisFunctional (coefficientsOf nuclearBasis) ψ i (X .z) =
        basisFunctional (coefficientsOf nuclearBasis) ψ i (X .x)) ∧
    (RebasingTable.nuclear.applyExact (rowsOf (laplaceMatrix id ψ).transpose) 20 20 16 16 =
        .ok (rowsOf (0 : Matrix (Fin 16) (Fin 16) ℚ)) ↔
      ∀ i, basisFunctional (coefficientsOf nuclearBasis) ψ i (X .z) =
        basisFunctional (coefficientsOf nuclearBasis) ψ i (X .x)) ∧
    (RebasingTable.kineticMomentum.applyExact (rowsOf (laplaceMatrix id ψ)) 20 20 16 16 =
        .ok (rowsOf (0 : Matrix (Fin 16) (Fin 16) ℚ)) ↔
      ψ 12 (X .z) = ψ 12 (X .x) ∧ ψ 13 (X .z) = ψ 14 (X .z) ∧ ψ 13 (X .x) = ψ 14 (X .x)) ∧
    (RebasingTable.kineticMomentum.applyExact (rowsOf (laplaceMatrix id ψ).transpose)
        20 20 16 16 = .ok (rowsOf (0 : Matrix (Fin 16) (Fin 16) ℚ)) ↔
      ψ 13 (X .z) = ψ 14 (X .z) ∧ (ψ 12 + ψ 13) (X .z) = (ψ 12 + ψ 13) (X .x) ∧
        ψ 15 (X .z) = ψ 15 (X .x) ∧ (ψ 14 + ψ 17) (X .z) = (ψ 14 + ψ 17) (X .x)) := by
  have hresult : ∀ {t : RebasingTable}, t.Serves → ∀ R,
      (t.applyExact (rowsOf R) 20 20 16 16 = .ok (rowsOf (0 : Matrix (Fin 16) (Fin 16) ℚ)) ↔
        t.basisMatrix R = 0) := by
    intro t ht R
    rw [ht.applyExact_eq, Except.ok.injEq, rowsOf_injective.eq_iff]
  refine ⟨?_, ?_, ?_, ?_⟩
  · rw [hresult serves_nuclear, nuclear_column_eq_zero_iff]
  · rw [hresult serves_nuclear, nuclear_row_eq_zero_iff]
  · rw [hresult serves_kineticMomentum, kinetic_column_eq_zero_iff]
  · rw [hresult serves_kineticMomentum, kinetic_row_eq_zero_iff]

/-- The coefficient of `z`. -/
noncomputable def zCoefficient : SpacePolynomial →ₗ[ℚ] ℚ := lcoeff ℚ (Finsupp.single .z 1)

theorem zCoefficient_z : zCoefficient (X .z) = 1 := by simp [zCoefficient]

theorem zCoefficient_x : zCoefficient (X .x) = 0 := by
  simp [zCoefficient, coeff_X, Finsupp.single_left_inj]

/-- Both tables have cells that are not always 0: in the nuclear table the coefficient of `z` in
row 1 shows the basis function 11, in the kinetic table that in row 13 shows the slip of row 11
and column 12. -/
theorem exists_laplaceMatrix_ne_zero :
    (∃ (ψ : Fin 20 → SpacePolynomial →ₗ[ℚ] ℚ) (B : Matrix (Fin 16) (Fin 16) ℚ),
      RebasingTable.nuclear.applyExact (rowsOf (laplaceMatrix id ψ)) 20 20 16 16 =
        .ok (rowsOf B) ∧ B 0 10 ≠ 0) ∧
    ∃ (ψ : Fin 20 → SpacePolynomial →ₗ[ℚ] ℚ) (B : Matrix (Fin 16) (Fin 16) ℚ),
      RebasingTable.kineticMomentum.applyExact (rowsOf (laplaceMatrix id ψ)) 20 20 16 16 =
        .ok (rowsOf B) ∧ B 10 11 ≠ 0 := by
  refine ⟨⟨Pi.single 0 zCoefficient, _, serves_nuclear.applyExact_eq _, ?_⟩,
    Pi.single 12 zCoefficient, _, serves_kineticMomentum.applyExact_eq _, ?_⟩
  · have hfunctional : basisFunctional (coefficientsOf nuclearBasis) (Pi.single 0 zCoefficient) 0 =
        zCoefficient := by
      rw [basisFunctional, Finset.sum_eq_single 0, Pi.single_eq_same,
        show coefficientsOf nuclearBasis 0 0 = 1 by decide +kernel, Int.cast_one, one_smul]
      · intro k _ hne
        rw [Pi.single_eq_of_ne hne, smul_zero]
      · exact fun hmem => absurd (Finset.mem_univ _) hmem
    rw [nuclear_column, hfunctional, map_sub, zCoefficient_z, zCoefficient_x, sub_zero, mul_one]
    exact Int.cast_ne_zero.2 fun h => (drift_eq_zero_iff 10).1 h (by decide)
  · rw [kinetic_column, kineticDeviation_10_11, (laplaceMatrix_columns _ 12).2.1,
      (laplaceMatrix_columns _ 12).2.2.1, Pi.single_eq_same, zCoefficient_z, zCoefficient_x]
    norm_num

end GaussianIntegrals
