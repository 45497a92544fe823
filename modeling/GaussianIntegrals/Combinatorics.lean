/-
  Exact integer combinatorics: binomial coefficients that vanish outside their triangle,
  factorials, and products of odd integers.
-/
import GaussianIntegrals.Text.Integer

namespace GaussianIntegrals

/-- `n · (n - 1) · … · (n - k + 1)`. -/
def falling (n : Nat) : Nat → Nat
  | 0 => 1
  | k + 1 => falling n k * (n - k)

/-- `n!`. -/
def factorial : Nat → Nat
  | 0 => 1
  | n + 1 => (n + 1) * factorial n

/-- The number of ways to choose `k` of `n`, computed from the smaller of `k` and `n - k`. -/
def choose (n k : Nat) : Nat :=
  let j := min k (n - k)
  falling n j / factorial j

/-- The binomial coefficient, 0 when `k` is negative or exceeds `n`. -/
def binomial (n k : Int) : Nat :=
  if k < 0 ∨ n < k then 0 else choose n.toNat k.toNat

/-- `1 · 3 · … · (2 n - 1)`. -/
def oddProduct : Nat → Nat
  | 0 => 1
  | n + 1 => oddProduct n * (2 * n + 1)

/-- The product of all odd integers from 1 up to `n`, the empty product for `n ≤ 0`. -/
def doubleFactorial (n : Int) : Nat := oddProduct ((n.toNat + 1) / 2)

/-- A factorial was asked of a negative number. -/
structure NegativeFactorial where
  value : Int
  deriving DecidableEq, Repr

/-- The wording of that error. -/
def NegativeFactorial.message (e : NegativeFactorial) : String :=
  Text.showInt e.value fun value => s!"Factorial of negative number {value} is undefined"

/-- The factorial of an integer that is not negative. -/
def factorialOf (n : Int) : Except NegativeFactorial Nat :=
  if n < 0 then .error ⟨n⟩ else .ok (factorial n.toNat)

theorem falling_succ (n k : Nat) : falling n (k + 1) = falling n k * (n - k) := rfl

theorem factorial_succ (n : Nat) : factorial (n + 1) = (n + 1) * factorial n := rfl

theorem factorial_pos (n : Nat) : 0 < factorial n := by
  induction n with
  | zero => decide
  | succ n ih => rw [factorial_succ]; exact Nat.mul_pos (Nat.succ_pos n) ih

theorem oddProduct_pos (n : Nat) : 0 < oddProduct n := by
  induction n with
  | zero => decide
  | succ n ih => rw [oddProduct]; exact Nat.mul_pos ih (Nat.succ_pos _)

/-- The odd numbers up to `2 j - 1` are the first `j` ones. -/
theorem doubleFactorial_odd (j : Nat) : doubleFactorial (2 * (j : Int) - 1) = oddProduct j := by
  have hcount : ((2 * (j : Int) - 1).toNat + 1) / 2 = j := by omega
  rw [doubleFactorial, hcount]

theorem binomial_of_neg {n k : Int} (h : k < 0) : binomial n k = 0 := by
  simp [binomial, h]

theorem binomial_of_lt {n k : Int} (h : n < k) : binomial n k = 0 := by
  simp [binomial, h]

end GaussianIntegrals
