/-
  The closed form and the truncated series of the Boys functions in exact arithmetic, where the
  values of `√π erf √T / √T` and of `exp (-T)` can be any rationals.

  Raising the order by one turns the closed form into that of the recurrence
  `2 T F_(n+1) = (2 n + 1) F_n - exp (-T)`: the tail is shifted by one place, and a new term
  comes in front (`closedValue_succ`). The first `k` terms of the series are what `k` steps of
  the recurrence leave behind, so the closed form less the series is a multiple of the closed
  form of order `n + k` (`closedForm_sub_series`).
-/
import GaussianIntegrals.Boys.Value
import GaussianIntegrals.Proofs.Combinatorics
import GaussianIntegrals.Proofs.Outcomes
import GaussianIntegrals.Proofs.SummandValue
import Mathlib.Algebra.BigOperators.Field
import Mathlib.Tactic.FieldSimp

namespace GaussianIntegrals.Boys

open Finset

/-- The coefficient of `T ^ -(k + 1)` in the tail of order `n`. -/
def tailCoefficient (n k : ℕ) : ℚ := (n - k).factorial / (4 ^ k * (2 * n - 2 * k).factorial)

/-- The closed form of order `n` at `t`, with the values `g` and `e` of its two functions. -/
def closedValue (t g e : ℚ) (n : ℕ) : ℚ :=
  (2 * n).factorial / (2 * n.factorial) *
    (g / (4 ^ n * t ^ n) - e * ∑ k ∈ range n, tailCoefficient n k * t ^ (-(k + 1 : ℤ)))

/-- The truncated series of order `n` at `t`, with the value `e` of `exp (-t)`. -/
def seriesSum (t e : ℚ) (n terms : ℕ) : ℚ :=
  1 / 2 * e * ∑ i ∈ range terms, t ^ i / ∏ j ∈ range (i + 1), ((n : ℚ) + j + 1 / 2)

/-! ## Values in a field -/

/-- The operations and the powers are those of a field at an argument that is not 0. -/
structure Quantities.InField {K : Type} [Field K] (Q : Quantities K) (t : K) : Prop where
  zero : Q.zero = 0
  add : ∀ x y, Q.add x y = x + y
  sub : ∀ x y, Q.sub x y = x - y
  mul : ∀ x y, Q.mul x y = x * y
  ofRat : ∀ v : ℚ, Q.ofRat v = .ok (v : K)
  power : ∀ k : ℤ, Q.power k = .ok (t ^ k)

namespace Quantities.InField

variable {K : Type} [Field K] {Q : Quantities K} {t : K} (h : Q.InField t)

include h

theorem tailSum_eq (cs : List ℚ) (k : ℕ) (sum : K) :
    tailSum Q k sum cs =
      .ok (sum + ((cs.zipIdx k).map fun c => (c.1 : K) * t ^ (-(c.2 + 1 : ℤ))).sum) := by
  induction cs generalizing k sum with
  | nil => simp [tailSum]
  | cons c cs ih =>
    have hpower : Q.power (-((k + 1 : ℕ) : ℤ)) = .ok (t ^ (-(k + 1 : ℤ))) := h.power _
    have hstep : tailSum Q k sum (c :: cs) =
        tailSum Q (k + 1) (Q.add sum (Q.mul c (t ^ (-(k + 1 : ℤ))))) cs := by
      rw [tailSum, h.ofRat, hpower]
      rfl
    rw [hstep, ih, h.add, h.mul, List.zipIdx_cons, List.map_cons, List.sum_cons, add_assoc]

/-- The value of any closed form, from that of its first term. -/
theorem valueIn_eq {f : ClosedForm} {lead : K}
    (hlead : Q.erfTerm (f.erfDenominator : ℚ) f.order = .ok lead) :
    f.valueIn Q = .ok (f.scale * (lead -
      Q.exp * (f.tail.zipIdx.map fun c => (c.1 : K) * t ^ (-(c.2 + 1 : ℤ))).sum)) := by
  have hdenominator := h.ofRat f.erfDenominator
  have htail : tailSum Q 0 Q.zero f.tail =
      .ok (f.tail.zipIdx.map fun c => (c.1 : K) * t ^ (-(c.2 + 1 : ℤ))).sum := by
    rw [h.tailSum_eq, h.zero, zero_add]
  have hscale := h.ofRat f.scale
  rw [← h.mul, ← h.sub, ← h.mul]
  exact bind_eq_ok.2 ⟨_, hdenominator, bind_eq_ok.2 ⟨_, hlead, bind_eq_ok.2 ⟨_, htail,
    bind_eq_ok.2 ⟨_, hscale, rfl⟩⟩⟩⟩

end Quantities.InField

/-! ## Values in exact arithmetic -/

section

variable {t : ℚ} (ht : t ≠ 0) (g e : ℚ)

include ht

theorem inField_exact : (exactQuantities t g e).InField t where
  zero := rfl
  add _ _ := rfl
  sub _ _ := rfl
  mul _ _ := rfl
  ofRat v := by rw [Rat.cast_id]; rfl
  power _ := if_neg fun h => ht h.1

/-- The value of any closed form in exact arithmetic. -/
theorem valueIn_exact (f : ClosedForm) :
    f.valueIn (exactQuantities t g e) =
      .ok (f.scale * (g / (4 ^ f.order * t ^ f.order) -
        e * (f.tail.zipIdx.map fun c => c.1 * t ^ (-(c.2 + 1 : ℤ))).sum)) := by
  have hlead : (exactQuantities t g e).erfTerm (f.erfDenominator : ℚ) f.order =
      .ok (g / (4 ^ f.order * t ^ f.order)) := if_neg ht
  exact (inField_exact ht g e).valueIn_eq hlead

omit ht in
theorem scale_coefficients (n : ℕ) :
    (ClosedForm.coefficients n).scale = (2 * n).factorial / (2 * n.factorial) := by
  simp [ClosedForm.coefficients, factorial_eq]

omit ht in
theorem zipIdx_tail_coefficients (n : ℕ) :
    (ClosedForm.coefficients n).tail.zipIdx =
      (List.range n).map fun k => (tailCoefficient n k, k) := by
  refine List.ext_getElem (by simp [ClosedForm.coefficients]) fun k h1 h2 => ?_
  simp [ClosedForm.coefficients, tailCoefficient, factorial_eq]

theorem valueIn_coefficients (n : ℕ) :
    (ClosedForm.coefficients n).valueIn (exactQuantities t g e) = .ok (closedValue t g e n) := by
  rw [valueIn_exact ht, scale_coefficients, zipIdx_tail_coefficients, List.map_map]
  have hsum := sum_map_range (fun k => tailCoefficient n k * t ^ (-(k + 1 : ℤ))) n
  have horder : (ClosedForm.coefficients n).order = (n : ℤ) := rfl
  rw [closedValue, ← hsum, horder, zpow_natCast, zpow_natCast]
  rfl

omit ht in
theorem halfRising_eq_prod (n i : ℕ) :
    halfRising n i = ∏ j ∈ range i, ((n : ℚ) + j + 1 / 2) := by
  induction i with
  | zero => rfl
  | succ i ih => rw [halfRising, ih, prod_range_succ, Int.cast_natCast]

theorem foldlM_addSeriesTerm (n terms : ℕ) :
    (List.range terms).foldlM (addSeriesTerm (exactQuantities t g e) n) 0 =
      .ok (∑ i ∈ range terms, t ^ i / ∏ j ∈ range (i + 1), ((n : ℚ) + j + 1 / 2)) := by
  induction terms with
  | zero => rfl
  | succ k ih =>
    have hpower : (exactQuantities t g e).power (k : ℤ) = .ok (t ^ k) := by
      rw [← zpow_natCast]
      exact if_neg fun h => ht h.1
    have hterm : ∀ sum : ℚ, addSeriesTerm (exactQuantities t g e) n sum k =
        .ok (sum + t ^ k / halfRising n (k + 1)) :=
      fun sum => bind_eq_ok.2 ⟨_, hpower, rfl⟩
    rw [List.range_succ, List.foldlM_append, ih, sum_range_succ, ← halfRising_eq_prod]
    exact bind_eq_ok.2 ⟨_, rfl, bind_eq_ok.2 ⟨_, hterm _, rfl⟩⟩

theorem seriesIn_exact (n terms : ℕ) :
    seriesIn (exactQuantities t g e) n terms = .ok (seriesSum t e n terms) :=
  bind_eq_ok.2 ⟨_, foldlM_addSeriesTerm ht g e n terms, rfl⟩

end

/-! ## The recurrence -/

theorem tailCoefficient_succ_zero (n : ℕ) :
    (2 * (n + 1)).factorial / (2 * (n + 1).factorial) * tailCoefficient (n + 1) 0 = 1 / 2 := by
  have h1 : ((n + 1).factorial : ℚ) ≠ 0 := Nat.cast_ne_zero.2 (Nat.factorial_ne_zero _)
  have h2 : ((2 * (n + 1)).factorial : ℚ) ≠ 0 := Nat.cast_ne_zero.2 (Nat.factorial_ne_zero _)
  simp only [tailCoefficient, Nat.sub_zero, Nat.mul_zero, pow_zero, one_mul]
  field_simp

/-- Behind its first coefficient the tail is that of the order below, shifted by one place. -/
theorem tailCoefficient_succ_succ (n k : ℕ) :
    tailCoefficient (n + 1) (k + 1) = tailCoefficient n k / 4 := by
  have hk : 2 * (n + 1) - 2 * (k + 1) = 2 * n - 2 * k := by omega
  rw [tailCoefficient, tailCoefficient, Nat.add_sub_add_right, hk, pow_succ]
  field_simp

theorem scale_succ (n : ℕ) :
    ((2 * (n + 1)).factorial : ℚ) / (2 * (n + 1).factorial) =
      2 * (2 * n + 1) * ((2 * n).factorial / (2 * n.factorial)) := by
  have h1 : (n.factorial : ℚ) ≠ 0 := Nat.cast_ne_zero.2 (Nat.factorial_ne_zero _)
  have htwo : 2 * (n + 1) = 2 * n + 1 + 1 := by ring
  rw [htwo, Nat.factorial_succ, Nat.factorial_succ, Nat.factorial_succ]
  push_cast
  field_simp
  ring

theorem closedValue_zero (t g e : ℚ) : closedValue t g e 0 = g / 2 := by
  simp [closedValue]
  ring

/-- The recurrence of the Boys functions. -/
theorem closedValue_succ {t : ℚ} (ht : t ≠ 0) (g e : ℚ) (n : ℕ) :
    2 * t * closedValue t g e (n + 1) = (2 * n + 1) * closedValue t g e n - e := by
  have hshift : ∀ k : ℕ, tailCoefficient (n + 1) (k + 1) * t ^ (-((k + 1 : ℕ) + 1 : ℤ)) =
      tailCoefficient n k * t ^ (-(k + 1 : ℤ)) / (4 * t) := by
    intro k
    have hexponent : (-((k + 1 : ℕ) + 1 : ℤ)) = -(k + 1 : ℤ) - 1 := by push_cast; ring
    rw [tailCoefficient_succ_succ, hexponent, zpow_sub_one₀ ht]
    field_simp
  have hlead : g / (4 ^ (n + 1) * t ^ (n + 1)) = g / (4 ^ n * t ^ n) / (4 * t) := by
    rw [pow_succ, pow_succ]
    field_simp
  have hfirst : t ^ (-((0 : ℕ) + 1 : ℤ)) = 1 / t := by simp
  have hscale := scale_succ n
  have hzero := tailCoefficient_succ_zero n
  rw [closedValue, closedValue, sum_range_succ', sum_congr rfl fun k _ => hshift k,
    ← sum_div, hlead, hfirst]
  generalize ∑ k ∈ range n, tailCoefficient n k * t ^ (-(k + 1 : ℤ)) = tail
  generalize g / (4 ^ n * t ^ n) = lead
  generalize ((2 * (n + 1)).factorial : ℚ) / (2 * (n + 1).factorial) = scale at hscale hzero ⊢
  generalize ((2 * n).factorial : ℚ) / (2 * n.factorial) = scaleBelow at hscale ⊢
  calc 2 * t * (scale * (lead / (4 * t) - e * (tail / (4 * t) + tailCoefficient (n + 1) 0 *
          (1 / t))))
      = scale / 2 * (lead - e * tail) - 2 * (scale * tailCoefficient (n + 1) 0) * e := by
        field_simp
        ring
    _ = (2 * n + 1) * (scaleBelow * (lead - e * tail)) - e := by
        rw [hzero, hscale]
        ring

/-! ## The remainder -/

/-- The product of the first `k` odd numbers from `2 n + 1` on. -/
def oddsFrom (n k : ℕ) : ℚ := ∏ i ∈ range k, (2 * n + 2 * i + 1 : ℚ)

theorem oddsFrom_ne_zero (n k : ℕ) : oddsFrom n k ≠ 0 :=
  prod_ne_zero_iff.2 fun _ _ => by positivity

theorem oddsFrom_succ (n k : ℕ) : oddsFrom n (k + 1) = oddsFrom n k * (2 * (n + k : ℕ) + 1) := by
  rw [oddsFrom, prod_range_succ, ← oddsFrom]
  push_cast
  ring

theorem prod_halves (n k : ℕ) :
    ∏ j ∈ range k, ((n : ℚ) + j + 1 / 2) = oddsFrom n k / 2 ^ k := by
  rw [oddsFrom, ← card_range k, ← prod_const, card_range, ← prod_div_distrib]
  refine prod_congr rfl fun j _ => ?_
  ring

theorem seriesSum_succ (t e : ℚ) (n k : ℕ) :
    seriesSum t e n (k + 1) = seriesSum t e n k + e * (2 * t) ^ k / oddsFrom n (k + 1) := by
  have hodds := oddsFrom_ne_zero n (k + 1)
  rw [seriesSum, sum_range_succ, mul_add, ← seriesSum, prod_halves, mul_pow, pow_succ]
  field_simp

theorem closedValue_sub_seriesSum {t : ℚ} (ht : t ≠ 0) (g e : ℚ) (n k : ℕ) :
    closedValue t g e n - seriesSum t e n k =
      (2 * t) ^ k / oddsFrom n k * closedValue t g e (n + k) := by
  induction k with
  | zero => simp [seriesSum, oddsFrom]
  | succ k ih =>
    have hodds := oddsFrom_ne_zero n k
    have hnext := oddsFrom_ne_zero n (k + 1)
    have hrecurrence := closedValue_succ ht g e (n + k)
    calc closedValue t g e n - seriesSum t e n (k + 1)
        = (2 * t) ^ k / oddsFrom n k * closedValue t g e (n + k) -
            e * (2 * t) ^ k / oddsFrom n (k + 1) := by
          rw [seriesSum_succ, ← ih]
          ring
      _ = (2 * t) ^ k / oddsFrom n (k + 1) *
            ((2 * (n + k : ℕ) + 1) * closedValue t g e (n + k) - e) := by
          rw [oddsFrom_succ] at hnext ⊢
          field_simp
      _ = (2 * t) ^ (k + 1) / oddsFrom n (k + 1) * closedValue t g e (n + (k + 1)) := by
          rw [← hrecurrence, pow_succ, Nat.add_assoc]
          ring

theorem ofOrder_natCast {n : ℕ} (h : n ≤ greatestOrder) :
    ClosedForm.ofOrder n = .ok (ClosedForm.coefficients n) := by
  unfold ClosedForm.ofOrder
  rw [if_neg (by omega), Int.toNat_natCast]

/-- **The closed form and the series agree up to an exact remainder.** At every rational `t`
other than 0, whatever the values `g` of `√π erf √t / √t` and `e` of `exp (-t)` are: the closed
form of order 0 is `g / 2`; and the closed form of order `n` less the first `k` terms of the
series is `(2 t)^k / ((2 n + 1) (2 n + 3) … (2 n + 2 k - 1))` times that of order `n + k`. The
orders up to the greatest have these closed forms. -/
theorem closedForm_sub_series {t : ℚ} (ht : t ≠ 0) (g e : ℚ) :
    (∀ n : ℕ, n ≤ greatestOrder → ClosedForm.ofOrder n = .ok (ClosedForm.coefficients n)) ∧
    (ClosedForm.coefficients 0).valueIn (exactQuantities t g e) = .ok (g / 2) ∧
    ∀ n k : ℕ, ∃ F S F' : ℚ,
      (ClosedForm.coefficients n).valueIn (exactQuantities t g e) = .ok F ∧
      seriesIn (exactQuantities t g e) n k = .ok S ∧
      (ClosedForm.coefficients (n + k)).valueIn (exactQuantities t g e) = .ok F' ∧
      F - S = (2 * t) ^ k / (∏ i ∈ range k, (2 * n + 2 * i + 1 : ℚ)) * F' := by
  refine ⟨fun n => ofOrder_natCast, ?_, fun n k => ?_⟩
  · rw [valueIn_coefficients ht, closedValue_zero]
  · exact ⟨_, _, _, valueIn_coefficients ht g e n, seriesIn_exact ht g e n k,
      valueIn_coefficients ht g e (n + k), closedValue_sub_seriesSum ht g e n k⟩

/-- Two terms of the series of order 1, at 2 with the values 3 and 5. -/
theorem closedForm_sub_series_at_two :
    (2 : ℚ) ≠ 0 ∧ 1 ≤ greatestOrder ∧
    ClosedForm.ofOrder (1 : ℕ) = .ok (ClosedForm.coefficients 1) ∧
    (ClosedForm.coefficients 0).valueIn (exactQuantities 2 3 5) = .ok (3 / 2) ∧
    (ClosedForm.coefficients 1).valueIn (exactQuantities 2 3 5) = .ok (-7 / 8) ∧
    seriesIn (exactQuantities 2 3 5) (1 : ℕ) (2 : ℕ) = .ok 3 ∧
    (ClosedForm.coefficients 3).valueIn (exactQuantities 2 3 5) = .ok (-465 / 128) ∧
    (-7 / 8 - 3 : ℚ) =
      (2 * 2) ^ 2 / (∏ i ∈ range 2, (2 * (1 : ℕ) + 2 * i + 1 : ℚ)) * (-465 / 128) := by
  have ht : (2 : ℚ) ≠ 0 := by decide
  have hbound : 1 ≤ greatestOrder := by decide
  have hclosed : (ClosedForm.coefficients 1).valueIn (exactQuantities 2 3 5) = .ok (-7 / 8) := by
    decide +kernel
  have hseries : seriesIn (exactQuantities 2 3 5) (1 : ℕ) (2 : ℕ) = .ok 3 := by decide +kernel
  have hhigher : (ClosedForm.coefficients 3).valueIn (exactQuantities 2 3 5) =
      .ok (-465 / 128) := by
    decide +kernel
  obtain ⟨hbounded, hzero, hall⟩ := closedForm_sub_series ht 3 5
  obtain ⟨F, S, F', hF, hS, hF', h⟩ := hall 1 2
  obtain rfl := Except.ok.inj (hF.symm.trans hclosed)
  obtain rfl := Except.ok.inj (hS.symm.trans hseries)
  obtain rfl := Except.ok.inj (hF'.symm.trans hhigher)
  exact ⟨ht, hbound, hbounded 1 hbound, hzero, hclosed, hseries, hhigher, h⟩

end GaussianIntegrals.Boys
