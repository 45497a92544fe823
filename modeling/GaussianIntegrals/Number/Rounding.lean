/-
  Rounding a quotient of natural numbers to the nearest integer, a tie going to the even
  neighbour, and rounding on a scale of powers of a base.
-/
namespace GaussianIntegrals.Number

/-- The integer nearest to `n / d`; of two equally near ones the even one. -/
def roundDiv (n d : Nat) : Nat :=
  let q := n / d
  let r := n % d
  if 2 * r < d then q
  else if d < 2 * r then q + 1
  else if q % 2 = 0 then q else q + 1

/-- `b ^ e` as a quotient: numerator and denominator of the power with an integer exponent. -/
def powQuotient (b : Nat) (e : Int) : Nat × Nat :=
  if e < 0 then (1, Nat.pow b e.natAbs) else (Nat.pow b e.natAbs, 1)

/-- The integer nearest to `(n / d) / b ^ e`. -/
def roundAt (b n d : Nat) (e : Int) : Nat :=
  let (p, q) := powQuotient b e
  roundDiv (n * q) (d * p)

/-- The rounded quotient is at most half a unit away. -/
theorem roundDiv_near (n d : Nat) (h : 0 < d) :
    2 * n ≤ 2 * d * roundDiv n d + d ∧ 2 * d * roundDiv n d ≤ 2 * n + d := by
  have hdm : d * (n / d) + n % d = n := Nat.div_add_mod n d
  have hr : n % d < d := Nat.mod_lt n h
  have e1 : 2 * d * (n / d) = 2 * (d * (n / d)) := Nat.mul_assoc 2 d (n / d)
  have e2 : 2 * d * (n / d + 1) = 2 * (d * (n / d)) + 2 * d := by
    rw [Nat.mul_add, e1, Nat.mul_one]
  simp only [roundDiv]
  repeat' split
  all_goals omega

end GaussianIntegrals.Number
