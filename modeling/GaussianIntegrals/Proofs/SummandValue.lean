/-
  The exact value of one term of a closed form, and sums over lists of indices as sums over
  ranges.
-/
import GaussianIntegrals.Proofs.ExactValue
import Mathlib.Algebra.BigOperators.Group.Finset.Basic

namespace GaussianIntegrals

open Finset

section Lists

variable {M : Type} [AddCommMonoid M]

theorem sum_map_range (f : ℕ → M) (n : ℕ) : ((List.range n).map f).sum = ∑ i ∈ range n, f i :=
  rfl

theorem sum_flatMap {α : Type} (l : List α) (f : α → List M) :
    (l.flatMap f).sum = (l.map fun a => (f a).sum).sum := by
  rw [List.flatMap_def, List.sum_flatten, List.map_map]
  rfl

end Lists

namespace Expr

variable {values : String → Option ℚ} {b : String} {y : ℚ}

theorem hasValue_power_natCast (h : values b = some y) (n : ℕ) :
    HasValue values (.power b n) (y ^ n) :=
  hasValue_power.2 ⟨y, h, fun _ => Int.natCast_nonneg n, zpow_natCast y n⟩

theorem hasValue_power_neg (h : values b = some y) (hy : y ≠ 0) (n : ℕ) :
    HasValue values (.power b (-n)) (y ^ n)⁻¹ :=
  hasValue_power.2 ⟨y, h, fun h0 => absurd h0 hy, by rw [zpow_neg, zpow_natCast]⟩

end Expr

namespace Summand

open Expr

variable {values : String → Option ℚ}

/-- A term that has not vanished is its coefficient times its powers and symbols. -/
theorem hasValue_toExpr {c : ℚ} {powers : List (String × ℤ)} {symbols : List String}
    {xs ys : List ℚ} (hx : HaveValues values (powers.map fun p => .power p.1 p.2) xs)
    (hy : HaveValues values (symbols.map .symbol) ys) :
    HasValue values (toExpr ⟨c, powers, symbols, false⟩) (c * (xs.prod * ys.prod)) := by
  unfold toExpr
  rw [Bool.false_or]
  by_cases hc : c = 0
  · rw [if_pos (beq_iff_eq.2 hc), hc, zero_mul]
    exact hasValue_const.2 rfl
  · rw [if_neg (mt beq_iff_eq.1 hc)]
    refine hasValue_product.2 ⟨c :: (xs ++ ys), .cons (hasValue_const.2 rfl) ?_, ?_⟩
    · exact List.rel_append hx hy
    · rw [List.prod_cons, List.prod_append]

theorem hasValue_zero : HasValue values Summand.zero.toExpr 0 := hasValue_const.2 rfl

end Summand

end GaussianIntegrals
