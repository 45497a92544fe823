/-
  The indices of the nuclear attraction sum of two orbitals with natural exponents: their
  bounds, and which of their binomial coefficients vanish.
-/
import GaussianIntegrals.Expansion.Nuclear
import GaussianIntegrals.Proofs.Combinatorics
import GaussianIntegrals.Proofs.Exponents
import Mathlib.Algebra.BigOperators.Group.List.Basic
import Mathlib.Algebra.Field.Rat

namespace GaussianIntegrals

variable {t1 t2 : Axis → ℕ}

/-- The bounds of the indices of an axis. -/
structure AxisIndex.Admissible (t1 t2 : Axis → ℕ) (k : AxisIndex) : Prop where
  order_le : k.reduction.l ≤ t1 k.axis + t2 k.axis
  pairs_le : 2 * (k.reduction.r + k.reduction.i) ≤ k.reduction.l
  share_le : k.u ≤ k.reduction.l

theorem Reduction.mem_upTo_iff {k : Reduction} {n : ℕ} :
    k ∈ upTo n ↔ k.l ≤ n ∧ 2 * (k.r + k.i) ≤ k.l := by
  simp only [upTo, List.mem_flatMap, List.mem_map, List.mem_range]
  constructor
  · rintro ⟨l, hl, r, hr, i, hi, rfl⟩
    constructor <;> dsimp only <;> omega
  · intro h
    exact ⟨k.l, by omega, k.r, by omega, k.i, by omega, rfl⟩

/-- There is one index for each axis, and all are in bounds. -/
theorem mem_nuclearIndices {ks : List AxisIndex}
    (h : ks ∈ nuclearIndices (.ofExponents t1) (.ofExponents t2)) :
    ks.length = 3 ∧ ∀ k ∈ ks, k.Admissible t1 t2 := by
  simp only [nuclearIndices, List.mem_flatMap, List.mem_map, List.mem_range,
    Triad.on_ofExponents, ← Int.natCast_add] at h
  obtain ⟨kx, hkx, ky, hky, kz, hkz, ux, hx, uy, hy, uz, hz, rfl⟩ := h
  refine ⟨rfl, ?_⟩
  simp only [List.mem_cons, List.not_mem_nil, or_false]
  rintro k (rfl | rfl | rfl)
  · obtain ⟨horder, hpairs⟩ := Reduction.mem_upTo_iff.1 hkx
    exact ⟨horder, hpairs, Nat.lt_succ_iff.1 hx⟩
  · obtain ⟨horder, hpairs⟩ := Reduction.mem_upTo_iff.1 hky
    exact ⟨horder, hpairs, Nat.lt_succ_iff.1 hy⟩
  · obtain ⟨horder, hpairs⟩ := Reduction.mem_upTo_iff.1 hkz
    exact ⟨horder, hpairs, Nat.lt_succ_iff.1 hz⟩

/-! ## Index triples -/

/-- The index triple with these reductions and shares of orbital 1. -/
def tripleOf (k : Axis → Reduction) (u : Axis → ℕ) : List AxisIndex :=
  Axis.all.map fun a => ⟨a, k a, u a⟩

theorem mem_tripleOf {x : AxisIndex} {k : Axis → Reduction} {u : Axis → ℕ} :
    x ∈ tripleOf k u ↔ ∃ a, ⟨a, k a, u a⟩ = x :=
  Axis.mem_map_all

theorem forall_mem_tripleOf {p : AxisIndex → Prop} {k : Axis → Reduction} {u : Axis → ℕ} :
    (∀ x ∈ tripleOf k u, p x) ↔ ∀ a, p ⟨a, k a, u a⟩ := by
  simp only [mem_tripleOf, forall_exists_index, forall_apply_eq_imp_iff]

theorem exists_eq_tripleOf {ks : List AxisIndex} (h : ks.map (·.axis) = Axis.all) :
    ∃ k u, ks = tripleOf k u := by
  obtain ⟨⟨_, kx, ux⟩, _, rfl, rfl, hx⟩ := List.map_eq_cons_iff.1 h
  obtain ⟨⟨_, ky, uy⟩, _, rfl, rfl, hy⟩ := List.map_eq_cons_iff.1 hx
  obtain ⟨⟨_, kz, uz⟩, _, rfl, rfl, hz⟩ := List.map_eq_cons_iff.1 hy
  obtain rfl := List.map_eq_nil_iff.1 hz
  exact ⟨Axis.values kx ky kz, Axis.values ux uy uz, rfl⟩

theorem tripleOf_mem_nuclearIndices_iff {k : Axis → Reduction} {u : Axis → ℕ} :
    tripleOf k u ∈ nuclearIndices (.ofExponents t1) (.ofExponents t2) ↔
      ∀ a, AxisIndex.Admissible t1 t2 ⟨a, k a, u a⟩ := by
  constructor
  · exact fun h => forall_mem_tripleOf.1 (mem_nuclearIndices h).2
  · intro h
    have hupTo : ∀ a, k a ∈
        Reduction.upTo ((Triad.ofExponents t1).on a + (Triad.ofExponents t2).on a) := by
      intro a
      rw [Triad.on_ofExponents, Triad.on_ofExponents, ← Nat.cast_add]
      exact Reduction.mem_upTo_iff.2 ⟨(h a).order_le, (h a).pairs_le⟩
    have hshare : ∀ a, u a < (k a).l + 1 := fun a => Nat.lt_succ_of_le (h a).share_le
    simp only [nuclearIndices, List.mem_flatMap, List.mem_map, List.mem_range]
    exact ⟨_, hupTo .x, _, hupTo .y, _, hupTo .z, _, hshare .x, _, hshare .y, _, hshare .z, rfl⟩

theorem sum_map_tripleOf (g : AxisIndex → ℕ) (k : Axis → Reduction) (u : Axis → ℕ) :
    ((tripleOf k u).map g).sum = Axis.total fun a => g ⟨a, k a, u a⟩ := by
  rw [tripleOf, List.map_map]
  rfl

/-! ## Binomial coefficients -/

theorem binomials_ofExponents {k : AxisIndex} (hu : k.u ≤ k.reduction.l) :
    k.binomials (.ofExponents t1) (.ofExponents t2) =
      (t1 k.axis).choose k.u * (t2 k.axis).choose (k.reduction.l - k.u) := by
  rw [AxisIndex.binomials, Triad.on_ofExponents, Triad.on_ofExponents, binomial_natCast,
    binomial_sub hu]

theorem le_of_binomials_ne_zero {k : AxisIndex} (hu : k.u ≤ k.reduction.l)
    (hk : k.binomials (.ofExponents t1) (.ofExponents t2) ≠ 0) :
    k.u ≤ t1 k.axis ∧ k.reduction.l - k.u ≤ t2 k.axis := by
  rw [binomials_ofExponents hu] at hk
  obtain ⟨h1, h2⟩ := Nat.mul_ne_zero_iff.1 hk
  constructor
  · by_contra hlt; exact h1 (Nat.choose_eq_zero_of_lt (by omega))
  · by_contra hlt; exact h2 (Nat.choose_eq_zero_of_lt (by omega))

theorem binomials_ne_zero_of_le {k : AxisIndex} (hu : k.u ≤ k.reduction.l)
    (h1 : k.u ≤ t1 k.axis) (h2 : k.reduction.l - k.u ≤ t2 k.axis) :
    k.binomials (.ofExponents t1) (.ofExponents t2) ≠ 0 := by
  rw [binomials_ofExponents hu]
  exact Nat.mul_ne_zero (Nat.choose_pos h1).ne' (Nat.choose_pos h2).ne'

/-- A term that has not vanished has no vanishing binomial coefficient. -/
theorem binomials_ne_zero {t1 t2 : Triad} {ks : List AxisIndex}
    (h : ¬ (ks.any fun k => k.binomials t1 t2 == 0) = true) :
    ∀ k ∈ ks, k.binomials t1 t2 ≠ 0 :=
  fun k hk h0 => h (List.any_eq_true.2 ⟨k, hk, beq_iff_eq.2 h0⟩)

theorem foldl_mul_eq_prod (f : AxisIndex → ℚ) (ks : List AxisIndex) :
    ks.foldl (fun c k => c * f k) 1 = (ks.map f).prod := by
  rw [List.prod_eq_foldl, List.foldl_map]

theorem foldl_add_eq_sum (g : AxisIndex → ℕ) (ks : List AxisIndex) :
    ks.foldl (fun n k => n + g k) 0 = (ks.map g).sum := by
  rw [List.sum_eq_foldl, List.foldl_map]

end GaussianIntegrals
