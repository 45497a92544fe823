/-
  The integer combinatorics in terms of factorials and binomial coefficients of natural
  numbers.
-/
import GaussianIntegrals.Combinatorics
import Mathlib.Data.Nat.Choose.Basic

namespace GaussianIntegrals

theorem falling_eq_descFactorial (n k : ℕ) : falling n k = n.descFactorial k := by
  induction k with
  | zero => rfl
  | succ k ih => rw [falling_succ, ih, Nat.descFactorial_succ, Nat.mul_comm]

theorem factorial_eq (n : ℕ) : factorial n = n.factorial := by
  induction n with
  | zero => rfl
  | succ n ih => rw [factorial_succ, ih, Nat.factorial_succ]

theorem choose_eq {n k : ℕ} (h : k ≤ n) : choose n k = n.choose k := by
  have hj : choose n k = n.choose (min k (n - k)) := by
    rw [choose, falling_eq_descFactorial, factorial_eq, Nat.choose_eq_descFactorial_div_factorial]
  rw [hj]
  rcases Nat.le_total k (n - k) with hk | hk
  · rw [Nat.min_eq_left hk]
  · rw [Nat.min_eq_right hk, Nat.choose_symm h]

theorem binomial_natCast (n k : ℕ) : binomial n k = n.choose k := by
  unfold binomial
  split
  · rw [Nat.choose_eq_zero_of_lt (by omega)]
  · rw [Int.toNat_natCast, Int.toNat_natCast, choose_eq (by omega)]

/-- The second index of a binomial product of two orbitals. -/
theorem binomial_sub {n l u : ℕ} (h : u ≤ l) : binomial n ((l : ℤ) - u) = n.choose (l - u) := by
  rw [← Int.natCast_sub h, binomial_natCast]

theorem binomial_two_mul_sub {n j s : ℕ} (h : s ≤ 2 * j) :
    binomial n (2 * (j : ℤ) - s) = n.choose (2 * j - s) := by
  have hcast : 2 * (j : ℤ) - s = ((2 * j : ℕ) : ℤ) - s := by rw [Int.natCast_mul]; rfl
  rw [hcast, binomial_sub h]

/-- The number of even moments of two orbitals on an axis. -/
theorem toNat_half_add_one (m n : ℕ) : (Int.fdiv ((m : ℤ) + n) 2 + 1).toNat = (m + n) / 2 + 1 := by
  rw [Int.fdiv_eq_ediv_of_nonneg _ (by decide)]
  omega

end GaussianIntegrals
