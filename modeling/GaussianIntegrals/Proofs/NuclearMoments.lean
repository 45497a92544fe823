/-
  The reduction indices of the nuclear attraction sum as moments.

  On one axis the sum over `r` and `i` at a fixed `l` is the `l`-th moment of a Gaussian
  weight over polynomials in one variable that counts the order of the Boys function: its
  mean is `-PC` times the variable and its variance `2 eps` times one minus the variable
  (`sum_reductions`). The indices `r` and `i` with one sum `n` belong to the binomial
  expansion of the `n`-th power of the variance.
-/
import GaussianIntegrals.Expansion.Nuclear
import GaussianIntegrals.Proofs.Combinatorics
import GaussianIntegrals.Proofs.Moments
import Mathlib.Algebra.BigOperators.Intervals
import Mathlib.Data.Nat.Choose.Sum
import Mathlib.Tactic.FieldSimp

namespace GaussianIntegrals

open Finset Polynomial

/-- The mean on an axis: a factor `PC` raises the Boys order by one. -/
noncomputable def boysMean (pc : ℚ) : ℚ[X] := -(C pc * X)

/-- The variance on an axis. -/
noncomputable def boysVariance (eps : ℚ) : ℚ[X] := C (2 * eps) * (1 - X)

namespace Reduction

/-- What a reduction contributes to a coefficient: its sign, its factorial quotient and the
powers of `PC` and `eps`. -/
def coefficient (pc eps : ℚ) (k : Reduction) : ℚ :=
  (-1) ^ (k.l + k.i) * k.weight * (pc ^ k.rest * eps ^ (k.r + k.i))

/-- What a reduction contributes to the order of the Boys function. -/
def order (k : Reduction) : ℕ := k.l - 2 * k.r - k.i

/-- The contribution of a reduction, the order as an exponent. -/
noncomputable def part (pc eps : ℚ) (k : Reduction) : ℚ[X] :=
  C (k.coefficient pc eps) * X ^ k.order

end Reduction

/-- The number of ways to take `2 n` of `l` factors in pairs, as a factorial quotient. -/
theorem choose_mul_oddProduct (l n : ℕ) (h : 2 * n ≤ l) :
    ((l.choose (2 * n) * oddProduct n : ℕ) : ℚ) * 2 ^ n =
      l.factorial / (n.factorial * (l - 2 * n).factorial : ℕ) := by
  have hpairs : ∀ n, (2 * n).factorial = 2 ^ n * n.factorial * oddProduct n := by
    intro n
    induction n with
    | zero => rfl
    | succ n ih =>
      rw [Nat.mul_succ, Nat.factorial_succ, Nat.factorial_succ, ih, oddProduct, Nat.factorial_succ]
      ring
  have hchoose := Nat.choose_mul_factorial_mul_factorial h
  rw [hpairs] at hchoose
  have hne : ((n.factorial * (l - 2 * n).factorial : ℕ) : ℚ) ≠ 0 :=
    Nat.cast_ne_zero.2 (Nat.mul_ne_zero (Nat.factorial_ne_zero _) (Nat.factorial_ne_zero _))
  rw [eq_div_iff hne, ← hchoose]
  push_cast
  ring

/-- The weight of a reduction splits into the quotient of `n = r + i` and the choice of `r`
among the `n`. -/
theorem weight_of_add (l r i : ℕ) (h : 2 * (r + i) ≤ l) :
    Reduction.weight ⟨l, r, i⟩ =
      ((l.choose (2 * (r + i)) * oddProduct (r + i) : ℕ) : ℚ) * 2 ^ (r + i) * (r + i).choose r := by
  have hadd := Nat.choose_mul_factorial_mul_factorial (Nat.le_add_right r i)
  rw [Nat.add_sub_cancel_left] at hadd
  have hr : (r.factorial : ℚ) ≠ 0 := Nat.cast_ne_zero.2 r.factorial_ne_zero
  have hi : (i.factorial : ℚ) ≠ 0 := Nat.cast_ne_zero.2 i.factorial_ne_zero
  have hn : ((r + i).factorial : ℚ) ≠ 0 := Nat.cast_ne_zero.2 (r + i).factorial_ne_zero
  have hrest : ((l - 2 * (r + i)).factorial : ℚ) ≠ 0 := Nat.cast_ne_zero.2 (Nat.factorial_ne_zero _)
  have hadd' := congrArg (Nat.cast (R := ℚ)) hadd
  have hk : Reduction.rest ⟨l, r, i⟩ = l - 2 * (r + i) := by
    simp only [Reduction.rest]
    omega
  rw [choose_mul_oddProduct l (r + i) h, Reduction.weight, hk]
  simp only [factorial_eq]
  push_cast at hadd' ⊢
  field_simp
  linear_combination -hadd'

/-- The reductions with `r + i = n` make up one term of the moment. -/
theorem sum_reductions_of_add (pc eps : ℚ) (l n : ℕ) (h : 2 * n ≤ l) :
    ∑ r ∈ range (n + 1), Reduction.part pc eps ⟨l, r, n - r⟩ =
      pairedTerm (boysMean pc) (boysVariance eps) l n := by
  have hvariance : boysVariance eps ^ n =
      ∑ r ∈ range (n + 1), C (2 ^ n * eps ^ n) * ((-X) ^ (n - r) * (n.choose r : ℚ[X])) := by
    rw [boysVariance, mul_pow, sub_eq_add_neg, add_pow, mul_sum, ← C_pow, mul_pow]
    simp only [one_pow, one_mul]
  rw [pairedTerm, hvariance, mul_sum, mul_sum]
  refine sum_congr rfl fun r hr => ?_
  have hrn : r + (n - r) = n := by have := mem_range.1 hr; omega
  have hw := weight_of_add l r (n - r) (by omega)
  rw [hrn] at hw
  have hsign : (-1 : ℚ) ^ (l + (n - r)) = (-1) ^ (l - 2 * n + (n - r)) := by
    rw [show l + (n - r) = l - 2 * n + (n - r) + 2 * n by omega, pow_add _ _ (2 * n), pow_mul,
      neg_one_sq, one_pow, mul_one]
  have horder : Reduction.order ⟨l, r, n - r⟩ = l - 2 * n + (n - r) := by
    simp only [Reduction.order]
    omega
  have hrest : Reduction.rest ⟨l, r, n - r⟩ = l - 2 * n := by
    simp only [Reduction.rest]
    omega
  rw [Reduction.part, Reduction.coefficient, hw, horder, hrest]
  simp only [hrn]
  rw [hsign, boysMean, neg_pow (C pc * X), neg_pow (X : ℚ[X]), mul_pow, pow_add (-1 : ℚ), pow_add X]
  simp only [map_mul, map_pow, map_neg, map_one, map_natCast]
  ring

/-- **The reductions of `l` sum up to its moment.** -/
theorem sum_reductions (pc eps : ℚ) (l : ℕ) :
    ∑ r ∈ range (l / 2 + 1), ∑ i ∈ range ((l - 2 * r) / 2 + 1), Reduction.part pc eps ⟨l, r, i⟩ =
      moment (boysMean pc) (boysVariance eps) l := by
  have hrange : ∀ r ∈ range (l / 2 + 1), (l - 2 * r) / 2 + 1 = l / 2 + 1 - r := by
    intro r hr
    have := mem_range.1 hr
    omega
  rw [sum_congr rfl fun r hr => by rw [hrange r hr],
    ← sum_range_diag_flip (l / 2 + 1) fun r i => Reduction.part pc eps ⟨l, r, i⟩,
    moment_eq_sum _ _ l (show l < 2 * (l / 2 + 1) by omega)]
  refine sum_congr rfl fun n hn => sum_reductions_of_add pc eps l n ?_
  have := mem_range.1 hn
  omega

end GaussianIntegrals
