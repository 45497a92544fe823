/-
  Moments of a Gaussian weight, as linear functions of polynomials.

  `weigh h` is the linear function on polynomials that sends the `n`-th power of the
  variable to `h n`. When `h` is the sequence `moment a c`, that is
  `h (n + 1) = a * h n + n * c * h (n - 1)`, multiplication by the variable turns into
  multiplication by `a` plus `c` times the derivative (`weigh_moment_X_mul`). On the product
  `(X + α) ^ m * (X + β) ^ n` of two orbitals this is the recurrence by which one exponent
  is raised (`weigh_moment_orbitals_succ_left`, `weigh_moment_orbitals_succ_right`).
-/
import GaussianIntegrals.Combinatorics
import Mathlib.Algebra.Algebra.Rat
import Mathlib.Algebra.Polynomial.Derivative
import Mathlib.Algebra.Polynomial.Monic
import Mathlib.Tactic.LinearCombination

namespace GaussianIntegrals

open Polynomial Finset

section Weigh

variable {M : Type} [AddCommGroup M] [Module ℚ M]

/-- The linear function with value `h n` at the `n`-th power of the variable. -/
noncomputable def weigh (h : ℕ → M) : ℚ[X] →ₗ[ℚ] M :=
  lsum fun n => LinearMap.toSpanSingleton ℚ M (h n)

theorem weigh_C_mul_X_pow (h : ℕ → M) (c : ℚ) (n : ℕ) : weigh h (C c * X ^ n) = c • h n := by
  rw [weigh, C_mul_X_pow_eq_monomial, lsum_apply, sum_monomial_index]
  · rfl
  · rw [map_zero]

theorem weigh_X_pow (h : ℕ → M) (n : ℕ) : weigh h (X ^ n) = h n := by
  have hn := weigh_C_mul_X_pow h 1 n
  rwa [map_one, one_mul, one_smul] at hn

theorem weigh_one (h : ℕ → M) : weigh h 1 = h 0 := by
  rw [← pow_zero X, weigh_X_pow]

theorem weigh_eq_sum (h : ℕ → M) (p : ℚ[X]) {n : ℕ} (hn : p.natDegree < n) :
    weigh h p = ∑ k ∈ range n, p.coeff k • h k := by
  rw [weigh, lsum_apply, p.sum_over_range' (fun k => by rw [map_zero]) n hn]
  rfl

/-- Two linear functions on polynomials agree if they agree on powers of the variable. -/
theorem linear_ext {f g : ℚ[X] →ₗ[ℚ] M} (h : ∀ n, f (X ^ n) = g (X ^ n)) : f = g := by
  refine lhom_ext' fun n => LinearMap.ext_ring ?_
  have hn := h n
  rw [X_pow_eq_monomial] at hn
  exact hn

/-- Multiplication by the variable shifts the weights. -/
theorem weigh_X_mul (h : ℕ → M) (p : ℚ[X]) : weigh h (X * p) = weigh (fun n => h (n + 1)) p := by
  have hf : weigh h ∘ₗ LinearMap.mulLeft ℚ X = weigh fun n => h (n + 1) := by
    refine linear_ext fun n => ?_
    rw [LinearMap.comp_apply, LinearMap.mulLeft_apply, ← pow_succ', weigh_X_pow, weigh_X_pow]
  exact congrArg (· p) (congrArg DFunLike.coe hf)

end Weigh

section Moment

variable {R : Type} [CommRing R]

/-- The moments of a Gaussian weight with mean `a` and variance `c`. -/
def moment (a c : R) : ℕ → R
  | 0 => 1
  | 1 => a
  | n + 2 => a * moment a c (n + 1) + (n + 1 : ℕ) * (c * moment a c n)

theorem moment_zero (a c : R) : moment a c 0 = 1 := rfl

theorem moment_succ (a c : R) (n : ℕ) :
    moment a c (n + 1) = a * moment a c n + n * (c * moment a c (n - 1)) := by
  cases n with
  | zero => simp [moment]
  | succ n => rfl

/-- Without a mean the even moments are products of odd numbers. -/
theorem moment_even (c : R) (j : ℕ) : moment 0 c (2 * j) = oddProduct j * c ^ j := by
  induction j with
  | zero => simp [moment, oddProduct]
  | succ j ih =>
    rw [Nat.mul_succ, moment, zero_mul, zero_add, ih, oddProduct]
    push_cast
    ring

/-- Without a mean the odd moments vanish. -/
theorem moment_odd (c : R) (j : ℕ) : moment 0 c (2 * j + 1) = 0 := by
  induction j with
  | zero => rfl
  | succ j ih => rw [Nat.mul_succ, moment, zero_mul, zero_add, ih, mul_zero, mul_zero]

/-- One term of a moment: `2 j` of the `n` factors are taken in pairs. -/
def pairedTerm (a c : R) (n j : ℕ) : R :=
  (n.choose (2 * j) * oddProduct j : ℕ) * (a ^ (n - 2 * j) * c ^ j)

theorem pairedTerm_zero (a c : R) (n : ℕ) : pairedTerm a c n 0 = a ^ n := by
  simp [pairedTerm, oddProduct]

theorem pairedTerm_of_lt (a c : R) {n j : ℕ} (h : n < 2 * j) : pairedTerm a c n j = 0 := by
  rw [pairedTerm, Nat.choose_eq_zero_of_lt h, Nat.zero_mul, Nat.cast_zero, zero_mul]

/-- The pairs of `n + 2` factors: the first factor is single, or it is paired with one of
the other `n + 1`. -/
theorem pairedTerm_succ (a c : R) (n j : ℕ) :
    pairedTerm a c (n + 2) (j + 1) =
      a * pairedTerm a c (n + 1) (j + 1) + (n + 1 : ℕ) * (c * pairedTerm a c n j) := by
  have hpascal : (n + 2).choose (2 * (j + 1)) =
      (n + 1).choose (2 * j + 1) + (n + 1).choose (2 * (j + 1)) := by
    rw [Nat.mul_succ, Nat.choose_succ_succ]
  have habsorb : (n + 1).choose (2 * j + 1) * oddProduct (j + 1) =
      (n + 1) * (n.choose (2 * j) * oddProduct j) := by
    rw [oddProduct, ← Nat.mul_assoc (n + 1), Nat.add_one_mul_choose_eq]
    ring
  have hsingle : ((n + 1).choose (2 * (j + 1)) : R) * a ^ (n + 2 - 2 * (j + 1)) =
      a * ((n + 1).choose (2 * (j + 1)) * a ^ (n + 1 - 2 * (j + 1))) := by
    rcases Nat.lt_or_ge (n + 1) (2 * (j + 1)) with h | h
    · rw [Nat.choose_eq_zero_of_lt h, Nat.cast_zero, zero_mul, zero_mul, mul_zero]
    · rw [show n + 2 - 2 * (j + 1) = n + 1 - 2 * (j + 1) + 1 by omega, pow_succ]
      ring
  have habsorb' := congrArg (Nat.cast (R := R)) habsorb
  rw [show n + 2 - 2 * (j + 1) = n - 2 * j by omega] at hsingle
  simp only [pairedTerm]
  rw [hpascal, show n + 2 - 2 * (j + 1) = n - 2 * j by omega]
  push_cast at habsorb' ⊢
  linear_combination (a ^ (n - 2 * j) * c ^ (j + 1)) * habsorb' +
    (oddProduct (j + 1) * c ^ (j + 1)) * hsingle

theorem moment_eq_sum (a c : R) (n : ℕ) {k : ℕ} (hk : n < 2 * k) :
    moment a c n = ∑ j ∈ range k, pairedTerm a c n j := by
  obtain ⟨k, rfl⟩ : ∃ m, k = m + 1 := ⟨k - 1, by omega⟩
  induction n using Nat.twoStepInduction generalizing k with
  | zero =>
    rw [sum_range_succ', pairedTerm_zero, pow_zero,
      sum_eq_zero fun j _ => pairedTerm_of_lt a c (by omega), zero_add, moment]
  | one =>
    rw [sum_range_succ', pairedTerm_zero, pow_one,
      sum_eq_zero fun j _ => pairedTerm_of_lt a c (by omega), zero_add, moment]
  | more n ih0 ih1 =>
    obtain ⟨k, rfl⟩ : ∃ m, k = m + 1 := ⟨k - 1, by omega⟩
    have h0 := ih0 k (by omega)
    have h1 := ih1 (k + 1) (by omega)
    rw [sum_range_succ', pairedTerm_zero] at h1 ⊢
    simp only [pairedTerm_succ]
    rw [sum_add_distrib, ← mul_sum, ← mul_sum, ← mul_sum, ← h0, moment, h1]
    ring

variable [Algebra ℚ R]

/-- Multiplication by the variable under a Gaussian weight. -/
theorem weigh_moment_X_mul (a c : R) (p : ℚ[X]) :
    weigh (moment a c) (X * p) =
      a * weigh (moment a c) p + c * weigh (moment a c) (derivative p) := by
  have hf : weigh (moment a c) ∘ₗ LinearMap.mulLeft ℚ X =
      LinearMap.mulLeft ℚ a ∘ₗ weigh (moment a c) +
        LinearMap.mulLeft ℚ c ∘ₗ weigh (moment a c) ∘ₗ derivative := by
    refine linear_ext fun n => ?_
    simp only [LinearMap.comp_apply, LinearMap.add_apply, LinearMap.mulLeft_apply]
    rw [← pow_succ', derivative_X_pow, weigh_X_pow, weigh_X_pow, weigh_C_mul_X_pow, moment_succ,
      Nat.cast_smul_eq_nsmul, nsmul_eq_mul]
    ring
  exact congrArg (· p) (congrArg DFunLike.coe hf)

end Moment

/-! ## Two orbitals on one axis -/

section Orbitals

/-- The product of two orbitals with exponents `m` and `n`, seen from the centre of the
product; `α` and `β` are the distances of the orbitals' centres. -/
noncomputable def orbitals (α β : ℚ) (m n : ℕ) : ℚ[X] := (X + C α) ^ m * (X + C β) ^ n

variable (α β : ℚ)

theorem orbitals_succ_left (m n : ℕ) :
    orbitals α β (m + 1) n = X * orbitals α β m n + C α * orbitals α β m n := by
  rw [orbitals, orbitals, pow_succ]
  ring

theorem orbitals_succ_right (m n : ℕ) :
    orbitals α β m (n + 1) = X * orbitals α β m n + C β * orbitals α β m n := by
  rw [orbitals, orbitals, pow_succ]
  ring

theorem derivative_orbitals (m n : ℕ) :
    derivative (orbitals α β m n) =
      C (m : ℚ) * orbitals α β (m - 1) n + C (n : ℚ) * orbitals α β m (n - 1) := by
  simp only [orbitals, derivative_mul, derivative_X_add_C_pow]
  ring

theorem natDegree_orbitals (m n : ℕ) : (orbitals α β m n).natDegree = m + n := by
  rw [orbitals, natDegree_mul (pow_ne_zero m (X_add_C_ne_zero α))
    (pow_ne_zero n (X_add_C_ne_zero β)), natDegree_pow_X_add_C, natDegree_pow_X_add_C]

/-- The coefficients are sums over the share `u` of orbital 1. -/
theorem coeff_orbitals (m n l : ℕ) :
    (orbitals α β m n).coeff l =
      ∑ u ∈ range (l + 1),
        (m.choose u * n.choose (l - u) : ℕ) * (α ^ (m - u) * β ^ (n - (l - u))) := by
  rw [orbitals, coeff_mul, Nat.sum_antidiagonal_eq_sum_range_succ_mk]
  refine sum_congr rfl fun u _ => ?_
  rw [coeff_X_add_C_pow, coeff_X_add_C_pow]
  push_cast
  ring

variable {R : Type} [CommRing R] [Algebra ℚ R] (a c : R) (m n : ℕ)

theorem weigh_moment_orbitals_succ_left :
    weigh (moment a c) (orbitals α β (m + 1) n) =
      (algebraMap ℚ R α + a) * weigh (moment a c) (orbitals α β m n) +
        c * (m * weigh (moment a c) (orbitals α β (m - 1) n) +
          n * weigh (moment a c) (orbitals α β m (n - 1))) := by
  rw [orbitals_succ_left, map_add, weigh_moment_X_mul, derivative_orbitals]
  simp only [← smul_eq_C_mul, map_add, map_smul]
  rw [Nat.cast_smul_eq_nsmul, Nat.cast_smul_eq_nsmul, nsmul_eq_mul, nsmul_eq_mul,
    Algebra.smul_def]
  ring

theorem weigh_moment_orbitals_succ_right :
    weigh (moment a c) (orbitals α β m (n + 1)) =
      (algebraMap ℚ R β + a) * weigh (moment a c) (orbitals α β m n) +
        c * (m * weigh (moment a c) (orbitals α β (m - 1) n) +
          n * weigh (moment a c) (orbitals α β m (n - 1))) := by
  rw [orbitals_succ_right, map_add, weigh_moment_X_mul, derivative_orbitals]
  simp only [← smul_eq_C_mul, map_add, map_smul]
  rw [Nat.cast_smul_eq_nsmul, Nat.cast_smul_eq_nsmul, nsmul_eq_mul, nsmul_eq_mul,
    Algebra.smul_def]
  ring

theorem weigh_moment_orbitals_zero : weigh (moment a c) (orbitals α β 0 0) = 1 := by
  rw [orbitals, pow_zero, pow_zero, mul_one, weigh_one, moment_zero]

end Orbitals

end GaussianIntegrals
