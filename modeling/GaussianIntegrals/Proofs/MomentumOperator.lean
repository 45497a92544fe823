/-
  Momentum and kinetic energy as differential operators on overlaps.

  On an axis an orbital is a power of the distance from its centre times the Gaussian with the
  coefficient `c`, so its derivative has the exponent lowered, times the exponent, less
  `2 c` times the exponent raised (`gradient`). The momentum integral is the derivative of
  the overlap in orbital 2 (`hasValue_momentum`), the kinetic energy minus one half of the
  sum of the second derivatives (`hasValue_kineticEnergy`).

  Where the centres are those of a product of two Gaussians, a derivative in orbital 2 is
  minus the one in orbital 1 (`gradient_spaceOverlap`): on the axis of the derivative this
  is the recurrence of overlaps, the other axes are a common factor. Derivatives in different
  orbitals commute, so two derivatives move to the other orbital without a sign.
-/
import GaussianIntegrals.Expansion.Operators
import GaussianIntegrals.Proofs.Exponents
import GaussianIntegrals.Proofs.OverlapRecurrence
import Mathlib.Tactic.FieldSimp

namespace GaussianIntegrals

open Expr

/-- The symbols of kinetic energy and momentum integrals have these values; `a2` is the
coefficient of the Gaussian of orbital 2. -/
structure OperatorValues (values : String → Option ℚ) (pa pb : Axis → ℚ) (a2 y : ℚ) : Prop where
  overlap : ∀ a : Axis, OverlapValues values a.number (pa a) (pb a) y
  a2_eq : values "a2" = some a2

/-- The value of an overlap in space. -/
noncomputable def spaceOverlap (pa pb : Axis → ℚ) (y : ℚ) (t1 t2 : Axis → ℕ) : ℚ :=
  (Axis.all.map fun a => overlapValue (pa a) (pb a) y (t1 a) (t2 a)).prod

/-- The derivative along an axis, for a function of the exponents of an orbital with the
Gaussian coefficient `c`. A term with the factor 0 stands for the lowered exponent -1. -/
def gradient (c : ℚ) (a : Axis) (f : (Axis → ℕ) → ℚ) (t : Axis → ℕ) : ℚ :=
  t a * f (t - a.unit) - 2 * c * f (t + a.unit)

/-! ## Derivatives -/

/-- The second derivative lowers and raises by two. -/
theorem gradient_gradient (c : ℚ) (a : Axis) (f : (Axis → ℕ) → ℚ) (t : Axis → ℕ) :
    gradient c a (gradient c a f) t =
      (t a * t a - t a) * f (t - 2 • a.unit) - 2 * c * (2 * t a + 1) * f t +
        4 * c ^ 2 * f (t + 2 • a.unit) := by
  have hraised : (t + a.unit) a = t a + 1 := by rw [Pi.add_apply, Axis.unit_self]
  simp only [gradient, lower_lower, raise_raise, lower_raise, hraised]
  by_cases h0 : t a = 0
  · rw [h0]
    push_cast
    ring
  · have hlowered : (t - a.unit) a + 1 = t a := by
      rw [Pi.sub_apply, Axis.unit_self]
      omega
    have hcast : (((t - a.unit) a : ℕ) : ℚ) = t a - 1 := by
      rw [← hlowered]
      push_cast
      ring
    rw [raise_lower a h0, hcast]
    push_cast
    ring

theorem gradient_neg (c : ℚ) (a : Axis) (f : (Axis → ℕ) → ℚ) (t : Axis → ℕ) :
    gradient c a (fun s => -f s) t = -gradient c a f t := by
  simp only [gradient]
  ring

/-- Derivatives in the two orbitals commute. -/
theorem gradient_comm (c1 c2 : ℚ) (a : Axis) (f : (Axis → ℕ) → (Axis → ℕ) → ℚ)
    (t1 t2 : Axis → ℕ) :
    gradient c2 a (fun s2 => gradient c1 a (fun s1 => f s1 s2) t1) t2 =
      gradient c1 a (fun s1 => gradient c2 a (fun s2 => f s1 s2) t2) t1 := by
  simp only [gradient]
  ring

/-! ## The values of the integrals -/

section Values

variable {values : String → Option ℚ} {x y z : ℚ} {e f g : Expr}

theorem hasValue_mul (he : HasValue values e x) (hf : HasValue values f y) :
    HasValue values (.product [e, f]) (x * y) :=
  hasValue_product.2 ⟨_, .cons he (.cons hf .nil), by simp⟩

theorem hasValue_mul_mul (he : HasValue values e x) (hf : HasValue values f y)
    (hg : HasValue values g z) : HasValue values (.product [e, f, g]) (x * (y * z)) :=
  hasValue_product.2 ⟨_, .cons he (.cons hf (.cons hg .nil)), by simp⟩

end Values

section Operators

variable {values : String → Option ℚ} {pa pb : Axis → ℚ} {a2 y : ℚ}
variable (h : OperatorValues values pa pb a2 y) (t1 t2 : Axis → ℕ)

include h

theorem hasValue_overlap :
    HasValue values (overlap (.ofExponents t1) (.ofExponents t2)) (spaceOverlap pa pb y t1 t2) := by
  refine hasValue_product.2 ⟨_, haveValues_map fun a _ => ?_, rfl⟩
  rw [Triad.on_ofExponents, Triad.on_ofExponents]
  exact hasValue_overlapSum (h.overlap a) (t1 a) (t2 a)

theorem hasValue_raisedOverlap (n : ℕ) (a : Axis) :
    HasValue values (overlap (.ofExponents t1) ((Triad.ofExponents t2).shift n a))
      (spaceOverlap pa pb y t1 (t2 + n • a.unit)) := by
  rw [Triad.shift_ofExponents]
  exact hasValue_overlap h t1 _

/-- Under a weight that vanishes with the exponents that cannot be lowered, the explicit zero
is no exception. -/
theorem hasValue_loweredOverlap (n : ℕ) (a : Axis) {w : ℚ} (hw : t2 a < n → w = 0) :
    ∃ x, HasValue values (loweredOverlap (.ofExponents t1) (.ofExponents t2) n a) x ∧
      w * x = w * spaceOverlap pa pb y t1 (t2 - n • a.unit) := by
  unfold loweredOverlap
  rw [Triad.on_ofExponents]
  by_cases hn : n ≤ t2 a
  · rw [if_pos (by omega), Triad.shift_neg_ofExponents a hn]
    exact ⟨_, hasValue_overlap h t1 _, rfl⟩
  · rw [if_neg (by omega), hw (by omega)]
    exact ⟨0, hasValue_const.2 rfl, by rw [zero_mul, zero_mul]⟩

/-- The momentum integral is the derivative of the overlap in orbital 2. -/
theorem hasValue_momentum (a : Axis) {prefactor : String} {c : ℚ}
    (hc : values prefactor = some c) :
    HasValue values (momentum (.ofExponents t1) (.ofExponents t2) a prefactor)
      (c * gradient a2 a (spaceOverlap pa pb y t1) t2) := by
  have hweight : t2 a < 1 → (t2 a : ℚ) = 0 := fun h0 => by rw [Nat.lt_one_iff.1 h0, Nat.cast_zero]
  obtain ⟨x, hx, hlowered⟩ := hasValue_loweredOverlap h t1 t2 1 a hweight
  have hraised := hasValue_raisedOverlap h t1 t2 1 a
  rw [one_nsmul] at hlowered hraised
  have hd : HasValue values (.const ((Triad.ofExponents t2).on a)) (t2 a) := by
    rw [Triad.on_ofExponents, Int.cast_natCast]
    exact hasValue_const.2 rfl
  have hfirst := hasValue_mul hd (hasValue_group.2 hx)
  have hsecond := hasValue_mul_mul (hasValue_const (v := -2).2 rfl) (hasValue_symbol.2 h.a2_eq)
    (hasValue_group.2 hraised)
  have hsum := hasValue_sum.2 ⟨_, .cons hfirst (.cons hsecond .nil), rfl⟩
  have hvalue : gradient a2 a (spaceOverlap pa pb y t1) t2 =
      [t2 a * x, -2 * (a2 * spaceOverlap pa pb y t1 (t2 + a.unit))].sum := by
    rw [List.sum_cons, List.sum_singleton, hlowered, gradient]
    ring
  rw [hvalue]
  exact hasValue_mul (hasValue_symbol.2 hc) hsum

theorem hasValue_kineticBase :
    HasValue values (kineticBase (.ofExponents t1) (.ofExponents t2))
      ((Axis.all.map fun a => 2 * (t2 a : ℚ) + 1).sum * (a2 * spaceOverlap pa pb y t1 t2)) := by
  refine hasValue_mul_mul (hasValue_const.2 ?_) (hasValue_symbol.2 h.a2_eq)
    (hasValue_overlap h t1 t2)
  simp [Axis.all, Triad.on_ofExponents]
  ring

theorem hasValue_kineticRaised (a : Axis) :
    HasValue values (kineticRaised (.ofExponents t1) (.ofExponents t2) a)
      (-2 * (a2 ^ 2 * spaceOverlap pa pb y t1 (t2 + 2 • a.unit))) :=
  hasValue_mul_mul (hasValue_const.2 rfl) (hasValue_power_natCast h.a2_eq 2)
    (hasValue_raisedOverlap h t1 t2 2 a)

theorem hasValue_kineticLowered (a : Axis) :
    HasValue values (kineticLowered (.ofExponents t1) (.ofExponents t2) a)
      (-((t2 a * t2 a - t2 a) / 2) * spaceOverlap pa pb y t1 (t2 - 2 • a.unit)) := by
  have hweight : t2 a < 2 → -(((t2 a : ℚ) * t2 a - t2 a) / 2) = 0 := by
    intro h2
    obtain h0 | h1 : t2 a = 0 ∨ t2 a = 1 := by omega
    · rw [h0]
      norm_num
    · rw [h1]
      norm_num
  obtain ⟨x, hx, hlowered⟩ := hasValue_loweredOverlap h t1 t2 2 a hweight
  rw [← hlowered]
  refine hasValue_mul (hasValue_const.2 ?_) hx
  rw [Triad.on_ofExponents]
  push_cast
  rfl

/-- The kinetic energy is minus one half of the second derivatives in orbital 2. -/
theorem hasValue_kineticEnergy {prefactor : String} {c : ℚ} (hc : values prefactor = some c) :
    HasValue values (kineticEnergy (.ofExponents t1) (.ofExponents t2) prefactor)
      (c * (-1 / 2 * (Axis.all.map fun a =>
        gradient a2 a (gradient a2 a (spaceOverlap pa pb y t1)) t2).sum)) := by
  have hterms := List.Forall₂.cons (hasValue_kineticBase h t1 t2)
    (List.rel_append (haveValues_map fun a (_ : a ∈ Axis.all) => hasValue_kineticRaised h t1 t2 a)
      (haveValues_map fun a (_ : a ∈ Axis.all) => hasValue_kineticLowered h t1 t2 a))
  refine hasValue_mul (hasValue_symbol.2 hc) (hasValue_sum.2 ⟨_, hterms, ?_⟩)
  simp only [gradient_gradient, Axis.all, List.map_cons, List.map_nil, List.sum_cons, List.sum_nil,
    List.cons_append, List.nil_append]
  ring

end Operators

/-- **The kinetic energy is minus one half of the momentum operator applied twice**, for all
orbitals and unit prefactors. A term with the factor 0 stands for the lowered exponent -1. -/
theorem kineticEnergy_eq_momentum_twice {values : String → Option ℚ} {pa pb : Axis → ℚ}
    {a2 y : ℚ} (h : OperatorValues values pa pb a2 y) {coef preFactor : String}
    (hcoef : values coef = some 1) (hpre : values preFactor = some 1) :
    ∃ (K : (Axis → ℕ) → (Axis → ℕ) → ℚ) (M : Axis → (Axis → ℕ) → (Axis → ℕ) → ℚ),
      (∀ t1 t2, (kineticEnergy (.ofExponents t1) (.ofExponents t2) coef).exactValue values =
        .ok (K t1 t2)) ∧
      (∀ a t1 t2, (momentum (.ofExponents t1) (.ofExponents t2) a preFactor).exactValue values =
        .ok (M a t1 t2)) ∧
      ∀ t1 t2, K t1 t2 =
        -1 / 2 * (Axis.all.map fun a =>
          t2 a * M a t1 (t2 - a.unit) - 2 * a2 * M a t1 (t2 + a.unit)).sum := by
  refine ⟨fun t1 t2 => -1 / 2 *
      (Axis.all.map fun a => gradient a2 a (gradient a2 a (spaceOverlap pa pb y t1)) t2).sum,
    fun a t1 t2 => gradient a2 a (spaceOverlap pa pb y t1) t2, ?_, ?_, ?_⟩
  · intro t1 t2
    have hK := hasValue_kineticEnergy h t1 t2 hcoef
    rwa [one_mul] at hK
  · intro a t1 t2
    have hM := hasValue_momentum h t1 t2 a hpre
    rwa [one_mul] at hM
  · intro t1 t2
    rfl

/-- A valuation of the symbols of kinetic energy and momentum integrals. -/
def operatorPoint (pa pb : Axis → ℚ) (a2 y prefactor : ℚ) (name : String) : Option ℚ :=
  [("PA(1)", pa .x), ("PA(2)", pa .y), ("PA(3)", pa .z), ("PB(1)", pb .x), ("PB(2)", pb .y),
    ("PB(3)", pb .z), ("Y", y), ("a2", a2), ("coef", prefactor), ("preFactor", prefactor)].lookup
      name

/-- Every choice of values is that of a valuation. -/
theorem operatorValues_operatorPoint (pa pb : Axis → ℚ) (a2 : ℚ) {y : ℚ} (hy : y ≠ 0)
    (prefactor : ℚ) : OperatorValues (operatorPoint pa pb a2 y prefactor) pa pb a2 y where
  overlap a := by cases a <;> exact ⟨rfl, rfl, rfl, hy⟩
  a2_eq := rfl

/-- The two integrals at a point. -/
theorem kineticEnergy_eq_momentum_twice_at_point :
    ∃ (K : (Axis → ℕ) → (Axis → ℕ) → ℚ) (M : Axis → (Axis → ℕ) → (Axis → ℕ) → ℚ),
      (∀ t1 t2, (kineticEnergy (.ofExponents t1) (.ofExponents t2) "coef").exactValue
        (operatorPoint (fun a => a.number) (fun a => 2 - a.number) (3 / 4) (-5) 1) =
          .ok (K t1 t2)) ∧
      (∀ a t1 t2, (momentum (.ofExponents t1) (.ofExponents t2) a "preFactor").exactValue
        (operatorPoint (fun a => a.number) (fun a => 2 - a.number) (3 / 4) (-5) 1) =
          .ok (M a t1 t2)) ∧
      ∀ t1 t2, K t1 t2 =
        -1 / 2 * (Axis.all.map fun a =>
          t2 a * M a t1 (t2 - a.unit) - 2 * (3 / 4) * M a t1 (t2 + a.unit)).sum :=
  kineticEnergy_eq_momentum_twice (operatorValues_operatorPoint _ _ _ (by decide) _) rfl rfl

/-! ## Integration by parts -/

section OneAxis

variable (pa pb y : ℚ) (m n : ℕ)

theorem overlapValue_swap : overlapValue pb pa y n m = overlapValue pa pb y m n := by
  have horbitals : orbitals pb pa n m = orbitals pa pb m n := mul_comm _ _
  rw [overlapValue, overlapValue, horbitals]

theorem overlapValue_succ_left :
    overlapValue pa pb y (m + 1) n = pa * overlapValue pa pb y m n +
      1 / (2 * y) * (m * overlapValue pa pb y (m - 1) n + n * overlapValue pa pb y m (n - 1)) := by
  unfold overlapValue
  rw [weigh_moment_orbitals_succ_left, add_zero]
  rfl

theorem overlapValue_succ_right :
    overlapValue pa pb y m (n + 1) = pb * overlapValue pa pb y m n +
      1 / (2 * y) * (m * overlapValue pa pb y (m - 1) n + n * overlapValue pa pb y m (n - 1)) := by
  unfold overlapValue
  rw [weigh_moment_orbitals_succ_right, add_zero]
  rfl

/-- On the axis of the derivatives the raised terms of both orbitals carry the lowered ones. -/
theorem overlapValue_by_parts {a1 a2 : ℚ} (hy : a1 + a2 ≠ 0) (hcentre : a1 * pa + a2 * pb = 0) :
    n * overlapValue pa pb (a1 + a2) m (n - 1) - 2 * a2 * overlapValue pa pb (a1 + a2) m (n + 1) =
      -(m * overlapValue pa pb (a1 + a2) (m - 1) n -
        2 * a1 * overlapValue pa pb (a1 + a2) (m + 1) n) := by
  have hcoefficient : 2 * (a1 + a2) * (1 / (2 * (a1 + a2))) = 1 := by
    field_simp
  rw [overlapValue_succ_left, overlapValue_succ_right]
  generalize overlapValue pa pb (a1 + a2) m n = s
  generalize (m : ℚ) * overlapValue pa pb (a1 + a2) (m - 1) n = u
  generalize (n : ℚ) * overlapValue pa pb (a1 + a2) m (n - 1) = v
  linear_combination (-2 * s) * hcentre - (u + v) * hcoefficient

end OneAxis

section Space

variable (pa pb : Axis → ℚ) (t1 t2 : Axis → ℕ) (a : Axis)

theorem spaceOverlap_swap (y : ℚ) : spaceOverlap pb pa y t2 t1 = spaceOverlap pa pb y t1 t2 := by
  unfold spaceOverlap
  simp only [overlapValue_swap]

/-- Exponents that differ on one axis only change the factor of that axis. -/
theorem exists_spaceOverlap_eq (y : ℚ) :
    ∃ q, ∀ s1 s2 : Axis → ℕ, (∀ b, b ≠ a → s1 b = t1 b) → (∀ b, b ≠ a → s2 b = t2 b) →
      spaceOverlap pa pb y s1 s2 = overlapValue (pa a) (pb a) y (s1 a) (s2 a) * q := by
  obtain ⟨q, hq⟩ := exists_cofactor (fun a => overlapValue (pa a) (pb a) y (t1 a) (t2 a)) a
  refine ⟨q, fun s1 s2 h1 h2 => ?_⟩
  rw [spaceOverlap, hq _ fun b hb => by rw [h1 b hb, h2 b hb]]

variable {pa pb}

/-- A derivative of the overlap in orbital 2 is minus the derivative in orbital 1. -/
theorem gradient_spaceOverlap {a1 a2 : ℚ} (hy : a1 + a2 ≠ 0)
    (hcentre : ∀ a, a1 * pa a + a2 * pb a = 0) :
    gradient a2 a (fun s2 => spaceOverlap pa pb (a1 + a2) t1 s2) t2 =
      -gradient a1 a (fun s1 => spaceOverlap pa pb (a1 + a2) s1 t2) t1 := by
  obtain ⟨q, hq⟩ := exists_spaceOverlap_eq pa pb t1 t2 a (a1 + a2)
  have hparts := overlapValue_by_parts (pa a) (pb a) (t1 a) (t2 a) hy (hcentre a)
  unfold gradient
  dsimp only
  rw [hq t1 (t2 - a.unit) (fun _ _ => rfl) (fun b hb => lower_of_ne a hb t2),
    hq t1 (t2 + a.unit) (fun _ _ => rfl) (fun b hb => raise_of_ne a hb t2),
    hq (t1 - a.unit) t2 (fun b hb => lower_of_ne a hb t1) (fun _ _ => rfl),
    hq (t1 + a.unit) t2 (fun b hb => raise_of_ne a hb t1) (fun _ _ => rfl)]
  simp only [Pi.add_apply, Pi.sub_apply, Axis.unit_self]
  linear_combination q * hparts

/-- Two derivatives move to the other orbital without a sign. -/
theorem gradient_gradient_spaceOverlap {a1 a2 : ℚ} (hy : a1 + a2 ≠ 0)
    (hcentre : ∀ a, a1 * pa a + a2 * pb a = 0) :
    gradient a2 a (gradient a2 a (spaceOverlap pa pb (a1 + a2) t1)) t2 =
      gradient a1 a (gradient a1 a fun s1 => spaceOverlap pa pb (a1 + a2) s1 t2) t1 := by
  let S := spaceOverlap pa pb (a1 + a2)
  have hmove : ∀ s1 s2, gradient a2 a (S s1) s2 = -gradient a1 a (fun r => S r s2) s1 :=
    fun s1 s2 => gradient_spaceOverlap s1 s2 a hy hcentre
  calc gradient a2 a (gradient a2 a (S t1)) t2
      = gradient a2 a (fun s2 => -gradient a1 a (fun s1 => S s1 s2) t1) t2 := by
        rw [funext (hmove t1)]
    _ = -gradient a1 a (fun s1 => gradient a2 a (S s1) t2) t1 := by
        rw [gradient_neg, gradient_comm]
    _ = -gradient a1 a (fun s1 => -gradient a1 a (fun r => S r t2) s1) t1 := by
        simp only [hmove]
    _ = gradient a1 a (gradient a1 a fun s1 => S s1 t2) t1 := by
        rw [gradient_neg, neg_neg]

end Space

/-- **Integration by parts.** Where the centres are those of the product of two Gaussians,
exchanging the orbitals turns the sign of a momentum integral and leaves the kinetic energy
as it is. -/
theorem integration_by_parts {values values' : String → Option ℚ} {pa pb : Axis → ℚ} {a1 a2 c : ℚ}
    (h : OperatorValues values pa pb a2 (a1 + a2)) (h' : OperatorValues values' pb pa a1 (a1 + a2))
    (hcentre : ∀ a, a1 * pa a + a2 * pb a = 0) {prefactor : String}
    (hc : values prefactor = some c) (hc' : values' prefactor = some c) (t1 t2 : Axis → ℕ) :
    (∀ a, ∃ x,
      (momentum (.ofExponents t1) (.ofExponents t2) a prefactor).exactValue values = .ok x ∧
      (momentum (.ofExponents t2) (.ofExponents t1) a prefactor).exactValue values' = .ok (-x)) ∧
    ∃ x,
      (kineticEnergy (.ofExponents t1) (.ofExponents t2) prefactor).exactValue values = .ok x ∧
      (kineticEnergy (.ofExponents t2) (.ofExponents t1) prefactor).exactValue values' = .ok x := by
  have hy : a1 + a2 ≠ 0 := (h.overlap .x).y_ne
  have hswap : spaceOverlap pb pa (a1 + a2) t2 = fun s1 => spaceOverlap pa pb (a1 + a2) s1 t2 :=
    funext fun s1 => spaceOverlap_swap pa pb s1 t2 (a1 + a2)
  constructor
  · intro a
    refine ⟨_, hasValue_momentum h t1 t2 a hc, ?_⟩
    have hM := hasValue_momentum h' t2 t1 a hc'
    rw [hswap] at hM
    rwa [gradient_spaceOverlap t1 t2 a hy hcentre, mul_neg, neg_neg]
  · refine ⟨_, hasValue_kineticEnergy h t1 t2 hc, ?_⟩
    have hK := hasValue_kineticEnergy h' t2 t1 hc'
    rw [hswap] at hK
    simp only [gradient_gradient_spaceOverlap t1 t2 _ hy hcentre]
    exact hK

/-- Two f orbitals with the coefficients 1 and 2. -/
theorem integration_by_parts_at_point :
    (∀ a, ∃ x,
      (momentum (.ofExponents fun a => a.number - 1) (.ofExponents fun _ => 1) a
        "preFactor").exactValue
          (operatorPoint (fun a => 2 * a.number) (fun a => -a.number) 2 (1 + 2) (1 / 7)) = .ok x ∧
      (momentum (.ofExponents fun _ => 1) (.ofExponents fun a => a.number - 1) a
        "preFactor").exactValue
          (operatorPoint (fun a => -a.number) (fun a => 2 * a.number) 1 (1 + 2) (1 / 7)) =
            .ok (-x)) ∧
    ∃ x,
      (kineticEnergy (.ofExponents fun a => a.number - 1) (.ofExponents fun _ => 1)
        "preFactor").exactValue
          (operatorPoint (fun a => 2 * a.number) (fun a => -a.number) 2 (1 + 2) (1 / 7)) = .ok x ∧
      (kineticEnergy (.ofExponents fun _ => 1) (.ofExponents fun a => a.number - 1)
        "preFactor").exactValue
          (operatorPoint (fun a => -a.number) (fun a => 2 * a.number) 1 (1 + 2) (1 / 7)) =
            .ok x := by
  have hy : (1 + 2 : ℚ) ≠ 0 := by norm_num
  have hcentre : ∀ a : Axis, 1 * (2 * (a.number : ℚ)) + 2 * -(a.number : ℚ) = 0 := by
    intro a
    ring
  exact integration_by_parts (operatorValues_operatorPoint _ _ _ hy _)
    (operatorValues_operatorPoint _ _ _ hy _) hcentre rfl rfl _ _

end GaussianIntegrals
