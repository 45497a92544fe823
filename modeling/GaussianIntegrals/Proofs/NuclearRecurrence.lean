/-
  The nuclear attraction sum satisfies the recurrence by which the exponents of its orbitals
  are raised one at a time.

  The value of the sum is linear in the values of the Boys functions. On each axis the sum
  over all indices is a polynomial in a variable that counts Boys orders, the weight
  `moment (boysMean PC) (boysVariance eps)` of the polynomial `orbitals` (`sum_axisParts`);
  the three of them multiply, and the values of the Boys functions are weights again
  (`hasValue_nuclearAttraction`). Raising an exponent changes one of the three factors, by
  the recurrence of `Moments`; the variable raises all Boys orders by one.
-/
import GaussianIntegrals.Proofs.Exponents
import GaussianIntegrals.Proofs.NuclearIndices
import GaussianIntegrals.Proofs.NuclearMoments
import GaussianIntegrals.Proofs.SummandValue
import Mathlib.Algebra.BigOperators.Ring.List
import Mathlib.Algebra.Polynomial.AlgebraMap

namespace GaussianIntegrals

open Finset Polynomial Expr

/-- The symbol of the Boys function of an order. -/
def boysSymbol (n : ℕ) : String := s!"F{n}"

/-- The symbols of a nuclear attraction integral have these values. -/
structure NuclearValues (values : String → Option ℚ) (pa pb pc : Axis → ℚ) (eps prefactor : ℚ)
    (boys : ℕ → ℚ) : Prop where
  pa_eq : ∀ a, values (centreSymbol "PA" a.number) = some (pa a)
  pb_eq : ∀ a, values (centreSymbol "PB" a.number) = some (pb a)
  pc_eq : ∀ a, values (centreSymbol "PC" a.number) = some (pc a)
  eps_eq : values "eps" = some eps
  prefactor_eq : values "preFactor" = some prefactor
  boys_eq : ∀ n, values (boysSymbol n) = some (boys n)

/-! ## One axis -/

namespace AxisIndex

/-- What the share of orbital 1 contributes to a coefficient. -/
def shareCoefficient (pa pb : Axis → ℚ) (t1 t2 : Axis → ℕ) (k : AxisIndex) : ℚ :=
  ((t1 k.axis).choose k.u * (t2 k.axis).choose (k.reduction.l - k.u) : ℕ) *
    (pa k.axis ^ (t1 k.axis - k.u) * pb k.axis ^ (t2 k.axis - (k.reduction.l - k.u)))

/-- The contribution of an axis to a term. -/
noncomputable def part (pa pb pc : Axis → ℚ) (eps : ℚ) (t1 t2 : Axis → ℕ) (k : AxisIndex) : ℚ[X] :=
  k.shareCoefficient pa pb t1 t2 • k.reduction.part (pc k.axis) eps

end AxisIndex

/-- The sum of all contributions of an axis. -/
noncomputable def axisSum (pa pb pc eps : ℚ) (e1 e2 : ℕ) : ℚ[X] :=
  weigh (moment (boysMean pc) (boysVariance eps)) (orbitals pa pb e1 e2)

theorem sum_upTo {M : Type} [AddCommMonoid M] (total : ℕ) (g : Reduction → M) :
    ((Reduction.upTo total).map g).sum =
      ∑ l ∈ range (total + 1), ∑ r ∈ range (l / 2 + 1), ∑ i ∈ range ((l - 2 * r) / 2 + 1),
        g ⟨l, r, i⟩ := by
  have htotal : ((total : ℤ) + 1).toNat = total + 1 := by omega
  rw [Reduction.upTo, htotal, List.map_flatMap, sum_flatMap, sum_map_range]
  refine sum_congr rfl fun l _ => ?_
  rw [List.map_flatMap, sum_flatMap, sum_map_range]
  refine sum_congr rfl fun r _ => ?_
  rw [List.map_map, sum_map_range]
  rfl

/-- The shares at a fixed `l` are the coefficient of the two orbitals there, and the
reductions of `l` its moment. -/
theorem sum_axisParts (pa pb pc : Axis → ℚ) (eps : ℚ) (t1 t2 : Axis → ℕ) (a : Axis) :
    ((Reduction.upTo (t1 a + t2 a : ℕ)).map fun k =>
        ((List.range (k.l + 1)).map fun u =>
          AxisIndex.part pa pb pc eps t1 t2 ⟨a, k, u⟩).sum).sum =
      axisSum (pa a) (pb a) (pc a) eps (t1 a) (t2 a) := by
  have hdegree : (orbitals (pa a) (pb a) (t1 a) (t2 a)).natDegree < t1 a + t2 a + 1 := by
    rw [natDegree_orbitals]
    omega
  rw [sum_upTo, axisSum, weigh_eq_sum _ _ hdegree]
  refine sum_congr rfl fun l _ => ?_
  rw [← sum_reductions, coeff_orbitals, smul_sum]
  refine sum_congr rfl fun r _ => ?_
  rw [smul_sum]
  refine sum_congr rfl fun i _ => ?_
  rw [sum_map_range, sum_smul]
  rfl

/-! ## The three axes together -/

/-- A product of one index per axis is summed axis by axis. -/
theorem sum_nuclearIndices {R : Type} [CommRing R] (t1 t2 : Triad) (g : AxisIndex → R) :
    ((nuclearIndices t1 t2).map fun ks => (ks.map g).prod).sum =
      (Axis.all.map fun a =>
        ((Reduction.upTo (t1.on a + t2.on a)).map fun k =>
          ((List.range (k.l + 1)).map fun u => g ⟨a, k, u⟩).sum).sum).prod := by
  simp only [nuclearIndices, List.map_flatMap, sum_flatMap, List.map_map, Function.comp_def,
    List.map_cons, List.map_nil, List.prod_cons, List.prod_nil, mul_one, Axis.all,
    List.sum_map_mul_left, List.sum_map_mul_right]

section Term

variable {values : String → Option ℚ} {pa pb pc : Axis → ℚ} {eps prefactor : ℚ} {boys : ℕ → ℚ}
variable {t1 t2 : Axis → ℕ}

/-- The values of the powers of the centres on an axis. -/
def AxisIndex.powerValues (pa pb pc : Axis → ℚ) (t1 t2 : Axis → ℕ) (k : AxisIndex) : List ℚ :=
  [pa k.axis ^ (t1 k.axis - k.u), pb k.axis ^ (t2 k.axis - (k.reduction.l - k.u)),
    pc k.axis ^ k.reduction.rest]

theorem haveValues_powers (h : NuclearValues values pa pb pc eps prefactor boys) {k : AxisIndex}
    (hu : k.u ≤ k.reduction.l) (hk : k.binomials (.ofExponents t1) (.ofExponents t2) ≠ 0) :
    HaveValues values
      ((k.powers (.ofExponents t1) (.ofExponents t2)).map fun p => .power p.1 p.2)
      (k.powerValues pa pb pc t1 t2) := by
  obtain ⟨h1, h2⟩ := le_of_binomials_ne_zero hu hk
  have hpa : (t1 k.axis : ℤ) - k.u = (t1 k.axis - k.u : ℕ) := by omega
  have hpb : (t2 k.axis : ℤ) - k.reduction.l + k.u =
      (t2 k.axis - (k.reduction.l - k.u) : ℕ) := by omega
  rw [AxisIndex.powers, Triad.on_ofExponents, Triad.on_ofExponents, hpa, hpb]
  exact .cons (hasValue_power_natCast (h.pa_eq _) _) (.cons (hasValue_power_natCast (h.pb_eq _) _)
    (.cons (hasValue_power_natCast (h.pc_eq _) _) .nil))

/-- The product of the contributions of some axes. -/
theorem prod_parts (ks : List AxisIndex) :
    (ks.map (AxisIndex.part pa pb pc eps t1 t2)).prod =
      C ((ks.map fun k => k.shareCoefficient pa pb t1 t2 *
        k.reduction.coefficient (pc k.axis) eps).prod) *
        X ^ (ks.map fun k => k.reduction.order).sum := by
  induction ks with
  | nil => simp
  | cons k ks ih =>
    simp only [List.map_cons, List.prod_cons, List.sum_cons]
    rw [ih, AxisIndex.part, Reduction.part, smul_eq_C_mul, pow_add, C_mul, C_mul]
    ring

theorem sign_mul (n : ℕ) (x : ℚ) : (if n % 2 == 1 then -x else x) = (-1) ^ n * x := by
  rcases Nat.mod_two_eq_zero_or_one n with h | h
  · rw [(Nat.even_iff.2 h).neg_one_pow, one_mul, h]
    rfl
  · rw [(Nat.odd_iff.2 h).neg_one_pow, neg_one_mul, h]
    rfl

theorem nuclearTerm_of_vanished {s1 s2 : Triad} {ks : List AxisIndex}
    (h : ∃ k ∈ ks, k.binomials s1 s2 = 0) : nuclearTerm s1 s2 ks = .zero := by
  rw [nuclearTerm, if_pos]
  simpa using h

theorem nuclearTerm_of_kept {s1 s2 : Triad} {ks : List AxisIndex}
    (h : ∀ k ∈ ks, k.binomials s1 s2 ≠ 0) :
    nuclearTerm s1 s2 ks =
      ⟨(-1) ^ (ks.map fun k => k.reduction.l + k.reduction.i).sum *
          (ks.map fun k => (k.binomials s1 s2 : ℚ) * k.reduction.weight).prod,
        ks.flatMap (AxisIndex.powers s1 s2) ++
          [("eps", (((ks.map fun k => k.reduction.r + k.reduction.i).sum : ℕ) : ℤ))],
        [boysSymbol (ks.map fun k => k.reduction.order).sum], false⟩ := by
  rw [nuclearTerm, if_neg (by simpa using h)]
  simp only [foldl_add_eq_sum, foldl_mul_eq_prod, sign_mul]
  rfl

/-- The signs, coefficients and powers of a term, collected axis by axis. -/
theorem prod_coefficients {ks : List AxisIndex} (hu : ∀ k ∈ ks, k.u ≤ k.reduction.l) :
    (ks.map fun k => k.shareCoefficient pa pb t1 t2 *
        k.reduction.coefficient (pc k.axis) eps).prod =
      (-1) ^ (ks.map fun k => k.reduction.l + k.reduction.i).sum *
          (ks.map fun k => (k.binomials (.ofExponents t1) (.ofExponents t2) : ℚ) *
            k.reduction.weight).prod *
        ((ks.flatMap (AxisIndex.powerValues pa pb pc t1 t2)).prod *
          eps ^ (ks.map fun k => k.reduction.r + k.reduction.i).sum) := by
  induction ks with
  | nil => simp
  | cons k ks ih =>
    have hk : k.binomials (.ofExponents t1) (.ofExponents t2) = _ :=
      binomials_ofExponents (hu k List.mem_cons_self)
    simp only [List.map_cons, List.prod_cons, List.sum_cons, List.flatMap_cons, List.prod_append,
      AxisIndex.powerValues, List.prod_nil]
    rw [ih fun j hj => hu j (List.mem_cons_of_mem k hj), hk, AxisIndex.shareCoefficient,
      Reduction.coefficient, pow_add (-1 : ℚ), pow_add eps]
    ring

/-- The value of a term. -/
theorem hasValue_nuclearTerm (h : NuclearValues values pa pb pc eps prefactor boys)
    {ks : List AxisIndex} (hu : ∀ k ∈ ks, k.u ≤ k.reduction.l) :
    HasValue values (nuclearTerm (.ofExponents t1) (.ofExponents t2) ks).toExpr
      (weigh boys (ks.map (AxisIndex.part pa pb pc eps t1 t2)).prod) := by
  rw [prod_parts, weigh_C_mul_X_pow, smul_eq_mul, prod_coefficients hu]
  by_cases hz : ∃ k ∈ ks, k.binomials (.ofExponents t1) (.ofExponents t2) = 0
  · obtain ⟨k, hk, hk0⟩ := hz
    have hzero : (ks.map fun k => (k.binomials (.ofExponents t1) (.ofExponents t2) : ℚ) *
        k.reduction.weight).prod = 0 := by
      refine List.prod_eq_zero (List.mem_map.2 ⟨k, hk, ?_⟩)
      rw [hk0, Nat.cast_zero, zero_mul]
    rw [nuclearTerm_of_vanished ⟨k, hk, hk0⟩, hzero, mul_zero, zero_mul, zero_mul]
    exact Summand.hasValue_zero
  · have hne : ∀ k ∈ ks, k.binomials (.ofExponents t1) (.ofExponents t2) ≠ 0 :=
      fun k hk hk0 => hz ⟨k, hk, hk0⟩
    rw [nuclearTerm_of_kept hne]
    have hpowers : HaveValues values
        ((ks.flatMap (AxisIndex.powers (.ofExponents t1) (.ofExponents t2)) ++
          [("eps", (((ks.map fun k => k.reduction.r + k.reduction.i).sum : ℕ) : ℤ))]).map
            fun p => .power p.1 p.2)
        (ks.flatMap (AxisIndex.powerValues pa pb pc t1 t2) ++
          [eps ^ (ks.map fun k => k.reduction.r + k.reduction.i).sum]) := by
      rw [List.map_append, List.map_flatMap]
      exact List.rel_append
        (haveValues_flatMap fun k hk => haveValues_powers h (hu k hk) (hne k hk))
        (.cons (hasValue_power_natCast h.eps_eq _) .nil)
    have hsymbols : HaveValues values
        ([boysSymbol (ks.map fun k => k.reduction.order).sum].map .symbol)
        [boys (ks.map fun k => k.reduction.order).sum] :=
      .cons (hasValue_symbol.2 (h.boys_eq _)) .nil
    have hvalue : ∀ c, HasValue values (Summand.toExpr ⟨c, _, _, false⟩) _ := fun c =>
      Summand.hasValue_toExpr hpowers hsymbols
    simp only [List.prod_append, List.prod_singleton, ← mul_assoc] at hvalue ⊢
    exact hvalue _

/-- The value of the nuclear attraction sum: a weight of the product of the three axes. -/
noncomputable def nuclearValue (pa pb pc : Axis → ℚ) (eps prefactor : ℚ) (boys : ℕ → ℚ)
    (t1 t2 : Axis → ℕ) : ℚ :=
  prefactor * weigh boys
    (Axis.all.map fun a => axisSum (pa a) (pb a) (pc a) eps (t1 a) (t2 a)).prod

/-- The nuclear attraction integral has a value. -/
theorem hasValue_nuclearAttraction (h : NuclearValues values pa pb pc eps prefactor boys)
    (t1 t2 : Axis → ℕ) :
    HasValue values (nuclearAttraction (.ofExponents t1) (.ofExponents t2) "preFactor")
      (nuclearValue pa pb pc eps prefactor boys t1 t2) := by
  have hterms : HaveValues values
      ((nuclearTerms (.ofExponents t1) (.ofExponents t2)).map Summand.toExpr)
      ((nuclearIndices (.ofExponents t1) (.ofExponents t2)).map fun ks =>
        weigh boys (ks.map (AxisIndex.part pa pb pc eps t1 t2)).prod) := by
    rw [nuclearTerms, List.map_map]
    exact haveValues_map fun ks hks =>
      hasValue_nuclearTerm h fun k hk => ((mem_nuclearIndices hks).2 k hk).share_le
  have hsum : HasValue values (ofTermList (nuclearTerms (.ofExponents t1) (.ofExponents t2)))
      (weigh boys (Axis.all.map fun a => axisSum (pa a) (pb a) (pc a) eps (t1 a) (t2 a)).prod) := by
    refine hasValue_sum.2 ⟨_, hterms, ?_⟩
    have haxes := sum_nuclearIndices (.ofExponents t1) (.ofExponents t2)
      (AxisIndex.part pa pb pc eps t1 t2)
    simp only [Triad.on_ofExponents, ← Nat.cast_add, sum_axisParts] at haxes
    rw [← haxes, map_list_sum, List.map_map]
    rfl
  refine hasValue_product.2 ⟨_, .cons (hasValue_symbol.2 h.prefactor_eq) (.cons hsum .nil), ?_⟩
  rw [nuclearValue, List.prod_cons, List.prod_singleton]

end Term

/-! ## Raising an exponent -/

/-- The weight of a raised axis: the variable in mean and variance raises the Boys orders. -/
theorem weigh_raised (boys : ℕ → ℚ) (α pc eps : ℚ) (m n : ℕ) (p p1 p2 q : ℚ[X]) :
    weigh boys (((C α + boysMean pc) * p +
        boysVariance eps * ((m : ℚ[X]) * p1 + (n : ℚ[X]) * p2)) * q) =
      α * weigh boys (p * q) - pc * weigh (fun k => boys (k + 1)) (p * q) +
        2 * eps * (m * (weigh boys (p1 * q) - weigh (fun k => boys (k + 1)) (p1 * q)) +
          n * (weigh boys (p2 * q) - weigh (fun k => boys (k + 1)) (p2 * q))) := by
  have hsplit : ((C α + boysMean pc) * p +
        boysVariance eps * ((m : ℚ[X]) * p1 + (n : ℚ[X]) * p2)) * q =
      C α * (p * q) - C pc * (X * (p * q)) +
        C (2 * eps) * (C (m : ℚ) * (p1 * q - X * (p1 * q)) +
          C (n : ℚ) * (p2 * q - X * (p2 * q))) := by
    rw [boysMean, boysVariance, map_natCast, map_natCast]
    ring
  rw [hsplit]
  simp only [← smul_eq_C_mul, map_add, map_sub, map_smul, smul_eq_mul, weigh_X_mul]

section AxisSum

variable (pa pb pc eps : ℚ) (m n : ℕ)

theorem axisSum_zero : axisSum pa pb pc eps 0 0 = 1 :=
  weigh_moment_orbitals_zero pa pb (boysMean pc) (boysVariance eps)

theorem axisSum_succ_left :
    axisSum pa pb pc eps (m + 1) n =
      (C pa + boysMean pc) * axisSum pa pb pc eps m n +
        boysVariance eps * ((m : ℚ[X]) * axisSum pa pb pc eps (m - 1) n +
          (n : ℚ[X]) * axisSum pa pb pc eps m (n - 1)) :=
  weigh_moment_orbitals_succ_left pa pb (boysMean pc) (boysVariance eps) m n

theorem axisSum_succ_right :
    axisSum pa pb pc eps m (n + 1) =
      (C pb + boysMean pc) * axisSum pa pb pc eps m n +
        boysVariance eps * ((m : ℚ[X]) * axisSum pa pb pc eps (m - 1) n +
          (n : ℚ[X]) * axisSum pa pb pc eps m (n - 1)) :=
  weigh_moment_orbitals_succ_right pa pb (boysMean pc) (boysVariance eps) m n

end AxisSum

section Recurrence

variable (pa pb pc : Axis → ℚ) (eps prefactor : ℚ) (boys : ℕ → ℚ) (t1 t2 : Axis → ℕ) (a : Axis)

theorem nuclearValue_zero : nuclearValue pa pb pc eps prefactor boys 0 0 = prefactor * boys 0 := by
  simp [nuclearValue, Axis.all, axisSum_zero, weigh_one]

/-- Exponents that differ on one axis only change the factor of that axis. -/
theorem exists_nuclearValue_eq :
    ∃ q, ∀ s1 s2 : Axis → ℕ, (∀ b, b ≠ a → s1 b = t1 b) → (∀ b, b ≠ a → s2 b = t2 b) → ∀ h,
      nuclearValue pa pb pc eps prefactor h s1 s2 =
        prefactor * weigh h (axisSum (pa a) (pb a) (pc a) eps (s1 a) (s2 a) * q) := by
  obtain ⟨q, hq⟩ := exists_cofactor
    (fun a => axisSum (pa a) (pb a) (pc a) eps (t1 a) (t2 a)) a
  refine ⟨q, fun s1 s2 h1 h2 h => ?_⟩
  rw [nuclearValue, hq _ fun b hb => by rw [h1 b hb, h2 b hb]]

theorem nuclearValue_raise_left :
    nuclearValue pa pb pc eps prefactor boys (t1 + a.unit) t2 =
      pa a * nuclearValue pa pb pc eps prefactor boys t1 t2 -
        pc a * nuclearValue pa pb pc eps prefactor (fun k => boys (k + 1)) t1 t2 +
        2 * eps * (t1 a * (nuclearValue pa pb pc eps prefactor boys (t1 - a.unit) t2 -
            nuclearValue pa pb pc eps prefactor (fun k => boys (k + 1)) (t1 - a.unit) t2) +
          t2 a * (nuclearValue pa pb pc eps prefactor boys t1 (t2 - a.unit) -
            nuclearValue pa pb pc eps prefactor (fun k => boys (k + 1)) t1 (t2 - a.unit))) := by
  obtain ⟨q, hq⟩ := exists_nuclearValue_eq pa pb pc eps prefactor t1 t2 a
  rw [hq (t1 + a.unit) t2 (fun b hb => raise_of_ne a hb t1) (fun _ _ => rfl)]
  simp only [hq t1 t2 (fun _ _ => rfl) (fun _ _ => rfl),
    hq (t1 - a.unit) t2 (fun b hb => lower_of_ne a hb t1) (fun _ _ => rfl),
    hq t1 (t2 - a.unit) (fun _ _ => rfl) (fun b hb => lower_of_ne a hb t2)]
  simp only [Pi.add_apply, Pi.sub_apply, Axis.unit_self]
  rw [axisSum_succ_left, weigh_raised]
  ring

theorem nuclearValue_raise_right :
    nuclearValue pa pb pc eps prefactor boys t1 (t2 + a.unit) =
      pb a * nuclearValue pa pb pc eps prefactor boys t1 t2 -
        pc a * nuclearValue pa pb pc eps prefactor (fun k => boys (k + 1)) t1 t2 +
        2 * eps * (t1 a * (nuclearValue pa pb pc eps prefactor boys (t1 - a.unit) t2 -
            nuclearValue pa pb pc eps prefactor (fun k => boys (k + 1)) (t1 - a.unit) t2) +
          t2 a * (nuclearValue pa pb pc eps prefactor boys t1 (t2 - a.unit) -
            nuclearValue pa pb pc eps prefactor (fun k => boys (k + 1)) t1 (t2 - a.unit))) := by
  obtain ⟨q, hq⟩ := exists_nuclearValue_eq pa pb pc eps prefactor t1 t2 a
  rw [hq t1 (t2 + a.unit) (fun _ _ => rfl) (fun b hb => raise_of_ne a hb t2)]
  simp only [hq t1 t2 (fun _ _ => rfl) (fun _ _ => rfl),
    hq (t1 - a.unit) t2 (fun b hb => lower_of_ne a hb t1) (fun _ _ => rfl),
    hq t1 (t2 - a.unit) (fun _ _ => rfl) (fun b hb => lower_of_ne a hb t2)]
  simp only [Pi.add_apply, Pi.sub_apply, Axis.unit_self]
  rw [axisSum_succ_right, weigh_raised]
  ring

end Recurrence

/-- The recurrence of nuclear attraction integrals. `V m` has the Boys orders raised by `m`.
A term with the factor 0 stands for the lowered exponent -1. -/
structure NuclearRecurrence (pa pb pc : Axis → ℚ) (eps prefactor : ℚ) (phi : ℕ → ℚ)
    (V : ℕ → (Axis → ℕ) → (Axis → ℕ) → ℚ) : Prop where
  zero : ∀ m, V m 0 0 = prefactor * phi m
  raise_left : ∀ m t1 t2 a, V m (t1 + a.unit) t2 =
    pa a * V m t1 t2 - pc a * V (m + 1) t1 t2 +
      2 * eps * (t1 a * (V m (t1 - a.unit) t2 - V (m + 1) (t1 - a.unit) t2) +
        t2 a * (V m t1 (t2 - a.unit) - V (m + 1) t1 (t2 - a.unit)))
  raise_right : ∀ m t1 t2 a, V m t1 (t2 + a.unit) =
    pb a * V m t1 t2 - pc a * V (m + 1) t1 t2 +
      2 * eps * (t1 a * (V m (t1 - a.unit) t2 - V (m + 1) (t1 - a.unit) t2) +
        t2 a * (V m t1 (t2 - a.unit) - V (m + 1) t1 (t2 - a.unit)))

/-- **The nuclear attraction integral of any two orbitals has a value, and these values
satisfy the recurrence.** `values m` gives the Boys function of order `n` the value
`phi (n + m)`. -/
theorem nuclearAttraction_recurrence {values : ℕ → String → Option ℚ} {pa pb pc : Axis → ℚ}
    {eps prefactor : ℚ} {phi : ℕ → ℚ}
    (h : ∀ m, NuclearValues (values m) pa pb pc eps prefactor fun n => phi (n + m)) :
    ∃ V : ℕ → (Axis → ℕ) → (Axis → ℕ) → ℚ,
      (∀ m t1 t2, (nuclearAttraction (.ofExponents t1) (.ofExponents t2) "preFactor").exactValue
        (values m) = .ok (V m t1 t2)) ∧
      NuclearRecurrence pa pb pc eps prefactor phi V := by
  have hshift : ∀ m, (fun k => phi (k + 1 + m)) = fun k => phi (k + (m + 1)) := fun m =>
    funext fun k => congrArg phi (by omega)
  refine ⟨fun m => nuclearValue pa pb pc eps prefactor fun n => phi (n + m),
    fun m t1 t2 => hasValue_nuclearAttraction (h m) t1 t2, ?_, ?_, ?_⟩
  · intro m
    rw [nuclearValue_zero, Nat.zero_add]
  · intro m t1 t2 a
    rw [← hshift m]
    exact nuclearValue_raise_left pa pb pc eps prefactor (fun n => phi (n + m)) t1 t2 a
  · intro m t1 t2 a
    rw [← hshift m]
    exact nuclearValue_raise_right pa pb pc eps prefactor (fun n => phi (n + m)) t1 t2 a

/-- A valuation of the symbols of nuclear attraction integrals. -/
def nuclearPoint (pa pb pc : Axis → ℚ) (eps prefactor : ℚ) (boys : ℕ → ℚ) (name : String) :
    Option ℚ :=
  match name.toList with
  | 'F' :: digits => some (boys (Nat.ofDigitChars 10 digits 0))
  | _ =>
    [("eps", eps), ("preFactor", prefactor), ("PA(1)", pa .x), ("PA(2)", pa .y), ("PA(3)", pa .z),
      ("PB(1)", pb .x), ("PB(2)", pb .y), ("PB(3)", pb .z), ("PC(1)", pc .x), ("PC(2)", pc .y),
      ("PC(3)", pc .z)].lookup name

/-- Every choice of values is that of a valuation. -/
theorem nuclearValues_nuclearPoint (pa pb pc : Axis → ℚ) (eps prefactor : ℚ) (boys : ℕ → ℚ) :
    NuclearValues (nuclearPoint pa pb pc eps prefactor boys) pa pb pc eps prefactor boys where
  pa_eq a := by cases a <;> rfl
  pb_eq a := by cases a <;> rfl
  pc_eq a := by cases a <;> rfl
  eps_eq := rfl
  prefactor_eq := rfl
  boys_eq n := by
    have hname : (boysSymbol n).toList = 'F' :: Nat.toDigits 10 n := by
      rw [boysSymbol, String.toList_append, Nat.toString_eq_repr, Nat.toList_repr]
      rfl
    rw [nuclearPoint, hname]
    exact congrArg (fun k => some (boys k)) Nat.ofDigitChars_ten_toDigits

/-- The recurrence at a point whose Boys functions have the values `1 / (2 n + 1)`. -/
theorem nuclearAttraction_recurrence_at_point :
    ∃ V : ℕ → (Axis → ℕ) → (Axis → ℕ) → ℚ,
      (∀ m t1 t2, (nuclearAttraction (.ofExponents t1) (.ofExponents t2) "preFactor").exactValue
        (nuclearPoint (fun a => a.number) (fun a => 1 / a.number) (fun a => 2 - a.number) (1 / 4) 3
          fun n => 1 / (2 * (n + m : ℕ) + 1)) = .ok (V m t1 t2)) ∧
      NuclearRecurrence (fun a => a.number) (fun a => 1 / a.number) (fun a => 2 - a.number) (1 / 4)
        3 (fun n => 1 / (2 * n + 1)) V :=
  nuclearAttraction_recurrence fun _ => nuclearValues_nuclearPoint _ _ _ _ _ _

end GaussianIntegrals
