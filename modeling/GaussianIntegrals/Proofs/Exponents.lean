/-
  The exponents of an orbital as a function on the axes: triads with natural exponents, one
  exponent raised or lowered, products over the axes in which one factor changes, and the total
  and the largest of the exponents.
-/
import GaussianIntegrals.Triad
import Mathlib.Algebra.BigOperators.Group.List.Basic
import Mathlib.Algebra.Module.NatInt
import Mathlib.Tactic.Ring

namespace GaussianIntegrals

/-- The triad with the given exponents. -/
def Triad.ofExponents (t : Axis → ℕ) : Triad := ⟨t .x, t .y, t .z⟩

theorem Triad.on_ofExponents (t : Axis → ℕ) (a : Axis) : (Triad.ofExponents t).on a = t a := by
  cases a <;> rfl

/-- One exponent on one axis. -/
def Axis.unit (a : Axis) : Axis → ℕ := Pi.single a 1

theorem Axis.unit_self (a : Axis) : a.unit a = 1 := Pi.single_eq_same a 1

theorem Axis.unit_of_ne {a b : Axis} (h : b ≠ a) : a.unit b = 0 := Pi.single_eq_of_ne h 1

theorem Axis.unit_le_one (a b : Axis) : a.unit b ≤ 1 := by
  by_cases h : b = a
  · rw [h, Axis.unit_self]
  · rw [Axis.unit_of_ne h]
    exact Nat.zero_le 1

/-! ## Raised and lowered exponents -/

section Shifts

variable (a : Axis)

theorem raise_of_ne {b : Axis} (h : b ≠ a) (t : Axis → ℕ) : (t + a.unit) b = t b := by
  rw [Pi.add_apply, Axis.unit_of_ne h, Nat.add_zero]

theorem lower_of_ne {b : Axis} (h : b ≠ a) (t : Axis → ℕ) : (t - a.unit) b = t b := by
  rw [Pi.sub_apply, Axis.unit_of_ne h, Nat.sub_zero]

theorem lower_lower (t : Axis → ℕ) : t - a.unit - a.unit = t - 2 • a.unit := by
  funext b
  rw [Pi.sub_apply, Pi.sub_apply, Pi.sub_apply, two_nsmul, Pi.add_apply, Nat.sub_sub]

theorem raise_raise (t : Axis → ℕ) : t + a.unit + a.unit = t + 2 • a.unit := by
  rw [two_nsmul, add_assoc]

theorem lower_raise (t : Axis → ℕ) : t + a.unit - a.unit = t := by
  funext b
  rw [Pi.sub_apply, Pi.add_apply, Nat.add_sub_cancel]

/-- What was lowered is raised again to what it was, if there was an exponent to lower. -/
theorem raise_lower {t : Axis → ℕ} (h : t a ≠ 0) : t - a.unit + a.unit = t := by
  funext b
  by_cases hb : b = a
  · rw [hb, Pi.add_apply, Pi.sub_apply, Axis.unit_self]
    omega
  · rw [raise_of_ne a hb, lower_of_ne a hb]

theorem Triad.eq_of_on {s t : Triad} (h : ∀ b, s.on b = t.on b) : s = t := by
  obtain ⟨l, m, n⟩ := s
  obtain ⟨l', m', n'⟩ := t
  exact congr (congrArg₂ Triad.mk (h .x) (h .y)) (h .z)

theorem Triad.shift_ofExponents (t : Axis → ℕ) (n : ℕ) :
    (ofExponents t).shift n a = ofExponents (t + n • a.unit) := by
  refine eq_of_on fun b => ?_
  by_cases hb : b = a
  · rw [hb, on_shift_self, on_ofExponents, on_ofExponents, Pi.add_apply, Pi.smul_apply,
      Axis.unit_self, smul_eq_mul, Nat.mul_one, Nat.cast_add]
  · rw [on_shift_of_ne _ _ (Ne.symm hb), on_ofExponents, on_ofExponents, Pi.add_apply,
      Pi.smul_apply, Axis.unit_of_ne hb, smul_zero, Nat.add_zero]

theorem Triad.shift_neg_ofExponents {t : Axis → ℕ} {n : ℕ} (h : n ≤ t a) :
    (ofExponents t).shift (-n) a = ofExponents (t - n • a.unit) := by
  refine eq_of_on fun b => ?_
  by_cases hb : b = a
  · rw [hb, on_shift_self, on_ofExponents, on_ofExponents, Pi.sub_apply, Pi.smul_apply,
      Axis.unit_self, smul_eq_mul, Nat.mul_one, Nat.cast_sub h]
    rfl
  · rw [on_shift_of_ne _ _ (Ne.symm hb), on_ofExponents, on_ofExponents, Pi.sub_apply,
      Pi.smul_apply, Axis.unit_of_ne hb, smul_zero, Nat.sub_zero]

end Shifts

/-! ## Products over the axes -/

/-- Of a product over the axes, all but one factor can be set aside. -/
theorem exists_cofactor {R : Type} [CommRing R] (f : Axis → R) (a : Axis) :
    ∃ q, ∀ g : Axis → R, (∀ b, b ≠ a → g b = f b) → (Axis.all.map g).prod = g a * q := by
  cases a with
  | x =>
    refine ⟨f .y * f .z, fun g hg => ?_⟩
    rw [← hg .y (by decide), ← hg .z (by decide)]
    simp [Axis.all]
  | y =>
    refine ⟨f .x * f .z, fun g hg => ?_⟩
    rw [← hg .x (by decide), ← hg .z (by decide)]
    simp [Axis.all, mul_left_comm]
  | z =>
    refine ⟨f .x * f .y, fun g hg => ?_⟩
    rw [← hg .x (by decide), ← hg .y (by decide)]
    simp [Axis.all, mul_comm, mul_left_comm]

theorem prod_axes_of_ne {R : Type} [CommRing R] {f : Axis → R} (a : Axis)
    (h : ∀ b, b ≠ a → f b = 1) : (Axis.all.map f).prod = f a := by
  obtain ⟨q, hq⟩ := exists_cofactor (fun _ => (1 : R)) a
  have hone : (1 : R) = 1 * q := by simpa [Axis.all] using hq (fun _ => 1) fun _ _ => rfl
  rw [hq f h, ← one_mul q, ← hone, mul_one]

/-! ## Totals over the axes -/

namespace Axis

/-- The function with the given values on the axes. -/
def values {α : Type} (vx vy vz : α) : Axis → α
  | .x => vx
  | .y => vy
  | .z => vz

/-- The sum over the axes. -/
def total (f : Axis → ℕ) : ℕ := (all.map f).sum

/-- The largest value on an axis. -/
def largest (f : Axis → ℕ) : ℕ := max (f .x) (max (f .y) (f .z))

theorem mem_all (a : Axis) : a ∈ all := by cases a <;> decide

theorem mem_map_all {α : Type} {f : Axis → α} {x : α} : x ∈ all.map f ↔ ∃ a, f a = x :=
  List.mem_map.trans ⟨fun ⟨a, _, h⟩ => ⟨a, h⟩, fun ⟨a, h⟩ => ⟨a, mem_all a, h⟩⟩

theorem total_eq (f : Axis → ℕ) : total f = f .x + f .y + f .z := by
  rw [total, all, List.map_cons, List.map_cons, List.map_cons, List.map_nil, List.sum_cons,
    List.sum_cons, List.sum_singleton, Nat.add_assoc]

theorem total_le_total {f g : Axis → ℕ} (h : ∀ a, f a ≤ g a) : total f ≤ total g := by
  rw [total_eq, total_eq]
  exact Nat.add_le_add (Nat.add_le_add (h .x) (h .y)) (h .z)

/-- Every number up to the total of some bounds is the total of values within them. -/
theorem exists_total_eq {bound : Axis → ℕ} {n : ℕ} (h : n ≤ total bound) :
    ∃ f : Axis → ℕ, (∀ a, f a ≤ bound a) ∧ total f = n := by
  rw [total_eq] at h
  obtain ⟨x, hx⟩ : ∃ x, x = min n (bound .x) := ⟨_, rfl⟩
  obtain ⟨y, hy⟩ : ∃ y, y = min (n - x) (bound .y) := ⟨_, rfl⟩
  refine ⟨values x y (n - x - y), fun a => ?_, ?_⟩
  · cases a <;> dsimp only [values] <;> omega
  · rw [total_eq]
    dsimp only [values]
    omega

theorem le_largest_iff {f : Axis → ℕ} {n : ℕ} : n ≤ largest f ↔ ∃ a, n ≤ f a := by
  rw [largest, le_max_iff, le_max_iff]
  constructor
  · rintro (h | h | h)
    exacts [⟨.x, h⟩, ⟨.y, h⟩, ⟨.z, h⟩]
  · rintro ⟨a, h⟩
    cases a
    exacts [.inl h, .inr (.inl h), .inr (.inr h)]

end Axis

end GaussianIntegrals
