/-
  The overlap on one axis is the moment of a Gaussian product: it is 1 for two orbitals
  without exponents, and raising one exponent leads to the overlaps in which one exponent is
  lowered.

  The sum over `j` and `s` is the weight `moment 0 (1 / (2 Y))` of the polynomial
  `orbitals`: the share `s` runs through the coefficient at `2 j`, and the coefficients at
  odd positions have weight 0 (`hasValue_overlapSum`). The recurrence is then that of
  `Moments`.
-/
import GaussianIntegrals.Expansion.Overlap
import GaussianIntegrals.Proofs.Combinatorics
import GaussianIntegrals.Proofs.Moments
import GaussianIntegrals.Proofs.SummandValue

namespace GaussianIntegrals

open Finset Expr

/-- The symbols of an overlap on one axis have these values. -/
structure OverlapValues (values : String → Option ℚ) (number : ℤ) (pa pb y : ℚ) : Prop where
  pa_eq : values (centreSymbol "PA" number) = some pa
  pb_eq : values (centreSymbol "PB" number) = some pb
  y_eq : values "Y" = some y
  y_ne : y ≠ 0

/-- The value of an overlap on one axis. -/
noncomputable def overlapValue (pa pb y : ℚ) (e1 e2 : ℕ) : ℚ :=
  weigh (moment 0 (1 / (2 * y))) (orbitals pa pb e1 e2)

/-- The part of the value at the indices `j` and `s`. -/
def overlapPart (pa pb y : ℚ) (e1 e2 j s : ℕ) : ℚ :=
  (e1.choose s * e2.choose (2 * j - s) : ℕ) * (pa ^ (e1 - s) * pb ^ (e2 - (2 * j - s))) *
    (oddProduct j * (1 / (2 * y)) ^ j)

variable {values : String → Option ℚ} {number : ℤ} {pa pb y : ℚ}

theorem hasValue_overlapTerm (h : OverlapValues values number pa pb y) (e1 e2 : ℕ) {j s : ℕ}
    (hs : s < 2 * j + 1) :
    HasValue values (overlapTerm e1 e2 number j s).toExpr (overlapPart pa pb y e1 e2 j s) := by
  unfold overlapTerm overlapPart
  rw [binomial_natCast, binomial_two_mul_sub (by omega), doubleFactorial_odd]
  by_cases hz : e1.choose s * e2.choose (2 * j - s) = 0
  · simp only [hz, if_true, Nat.cast_zero, zero_mul]
    exact Summand.hasValue_zero
  · simp only [hz, if_false]
    obtain ⟨h1, h2⟩ := Nat.mul_ne_zero_iff.1 hz
    have hs1 : s ≤ e1 := by by_contra hlt; exact h1 (Nat.choose_eq_zero_of_lt (by omega))
    have hs2 : 2 * j - s ≤ e2 := by
      by_contra hlt; exact h2 (Nat.choose_eq_zero_of_lt (by omega))
    have hpa : (e1 : ℤ) - s = (e1 - s : ℕ) := by omega
    have hpb : (e2 : ℤ) - 2 * j + s = (e2 - (2 * j - s) : ℕ) := by omega
    have hpowers : HaveValues values
        ([(centreSymbol "PA" number, (e1 : ℤ) - s),
          (centreSymbol "PB" number, (e2 : ℤ) - 2 * j + s), ("Y", -(j : ℤ))].map
            fun p => .power p.1 p.2)
        [pa ^ (e1 - s), pb ^ (e2 - (2 * j - s)), (y ^ j)⁻¹] := by
      rw [hpa, hpb]
      exact .cons (hasValue_power_natCast h.pa_eq _) (.cons (hasValue_power_natCast h.pb_eq _)
        (.cons (hasValue_power_neg h.y_eq h.y_ne j) .nil))
    have hp : ((Nat.pow 2 j : ℕ) : ℚ) = 2 ^ j := by rw [Nat.pow_eq, Nat.cast_pow, Nat.cast_ofNat]
    have hsymbols : HaveValues values (([] : List String).map .symbol) [] := .nil
    convert Summand.hasValue_toExpr hpowers hsymbols using 1
    simp only [List.prod_cons, List.prod_nil, mul_one, hp, Nat.cast_mul, one_div, mul_pow, inv_pow,
      mul_inv]
    ring

/-- A sum over an even range, in pairs. -/
theorem sum_range_two_mul (f : ℕ → ℚ) (n : ℕ) :
    ∑ k ∈ range (2 * n), f k = ∑ j ∈ range n, (f (2 * j) + f (2 * j + 1)) := by
  induction n with
  | zero => rfl
  | succ n ih => rw [Nat.mul_succ, sum_range_succ, sum_range_succ, sum_range_succ, ih, add_assoc]

/-- Only the even coefficients of the two orbitals have a weight. -/
theorem overlapValue_eq_sum (pa pb y : ℚ) (e1 e2 : ℕ) :
    overlapValue pa pb y e1 e2 =
      ∑ j ∈ range ((e1 + e2) / 2 + 1), ∑ s ∈ range (2 * j + 1), overlapPart pa pb y e1 e2 j s := by
  have hdegree : (orbitals pa pb e1 e2).natDegree < 2 * ((e1 + e2) / 2 + 1) := by
    rw [natDegree_orbitals]
    omega
  rw [overlapValue, weigh_eq_sum _ _ hdegree, sum_range_two_mul]
  refine sum_congr rfl fun j _ => ?_
  rw [moment_odd, smul_zero, add_zero, moment_even, smul_eq_mul, coeff_orbitals, sum_mul]
  rfl

/-- The overlap on one axis has a value, the weight of the two orbitals. -/
theorem hasValue_overlapSum (h : OverlapValues values number pa pb y) (e1 e2 : ℕ) :
    HasValue values (overlapSum e1 e2 number) (overlapValue pa pb y e1 e2) := by
  have hterms : HaveValues values ((overlapTerms e1 e2 number).map Summand.toExpr)
      ((List.range ((e1 + e2) / 2 + 1)).flatMap fun j =>
        (List.range (2 * j + 1)).map (overlapPart pa pb y e1 e2 j)) := by
    rw [overlapTerms, toNat_half_add_one, List.map_flatMap]
    refine haveValues_flatMap fun j _ => ?_
    rw [List.map_map]
    exact haveValues_map fun s hs => hasValue_overlapTerm h e1 e2 (List.mem_range.1 hs)
  refine hasValue_sum.2 ⟨_, hterms, ?_⟩
  rw [overlapValue_eq_sum, sum_flatMap]
  rfl

/-- The recurrence of overlaps on one axis. A term with the factor 0 stands for the lowered
exponent -1. -/
structure OverlapRecurrence (pa pb y : ℚ) (S : ℕ → ℕ → ℚ) : Prop where
  zero : S 0 0 = 1
  raise_left : ∀ e1 e2, S (e1 + 1) e2 =
    pa * S e1 e2 + (e1 * S (e1 - 1) e2 + e2 * S e1 (e2 - 1)) / (2 * y)
  raise_right : ∀ e1 e2, S e1 (e2 + 1) =
    pb * S e1 e2 + (e1 * S (e1 - 1) e2 + e2 * S e1 (e2 - 1)) / (2 * y)

/-- **The overlap of any two exponents has a value, and these values are the moments of a
Gaussian product.** -/
theorem overlapSum_recurrence (h : OverlapValues values number pa pb y) :
    ∃ S : ℕ → ℕ → ℚ,
      (∀ e1 e2 : ℕ, (overlapSum e1 e2 number).exactValue values = .ok (S e1 e2)) ∧
      OverlapRecurrence pa pb y S := by
  refine ⟨overlapValue pa pb y, hasValue_overlapSum h, ?_, fun e1 e2 => ?_, fun e1 e2 => ?_⟩
  · exact weigh_moment_orbitals_zero pa pb _ _
  · rw [overlapValue, weigh_moment_orbitals_succ_left, add_zero, one_div_mul_eq_div]
    rfl
  · rw [overlapValue, weigh_moment_orbitals_succ_right, add_zero, one_div_mul_eq_div]
    rfl

/-- The recurrence on the second axis at a point. -/
theorem overlapSum_recurrence_at_point :
    ∃ S : ℕ → ℕ → ℚ,
      (∀ e1 e2 : ℕ, (overlapSum e1 e2 2).exactValue
        (fun name => [("PA(2)", 1 / 3), ("PB(2)", -2), ("Y", 5)].lookup name) =
          .ok (S e1 e2)) ∧
      OverlapRecurrence (1 / 3) (-2) 5 S :=
  overlapSum_recurrence ⟨rfl, rfl, rfl, by decide⟩

end GaussianIntegrals
