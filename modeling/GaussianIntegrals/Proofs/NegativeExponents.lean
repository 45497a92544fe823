/-
  Orbitals of which an exponent is negative. A binomial coefficient of a negative number vanishes,
  so on the axis of that exponent every term is an explicit zero, whether its range of indices is
  empty or not; the other axes only ask for factorials of natural numbers. All integrals of such
  orbitals are 0 (`hasValue_nuclearAttraction_of_negative`, `hasValue_overlap_of_negative`).

  So the overlap of any integer exponents has a value, and the explicit zeros in kinetic energy and
  momentum stand for overlaps that are 0 anyway: without the guard that puts them there the formulas
  have the same values (`negative_exponents_vanish`).
-/
import GaussianIntegrals.Proofs.MomentumOperator
import GaussianIntegrals.Proofs.NuclearEnumeration

namespace GaussianIntegrals

open Expr

theorem binomial_of_neg_left {n : ℤ} (h : n < 0) (k : ℤ) : binomial n k = 0 := by
  rcases lt_or_ge k 0 with hk | hk
  · exact binomial_of_neg hk
  · exact binomial_of_lt (h.trans_le hk)

/-- A sum in which every term has vanished. -/
theorem hasValue_ofTermList_of_zero (values : String → Option ℚ) {ts : List Summand}
    (h : ∀ t ∈ ts, t = .zero) : HasValue values (.ofTermList ts) 0 := by
  have hterms : HaveValues values (ts.map Summand.toExpr) (ts.map fun _ => 0) :=
    haveValues_map fun t ht => h t ht ▸ Summand.hasValue_zero
  exact hasValue_sum.2 ⟨_, hterms, List.sum_map_zero⟩

/-! ## Nuclear attraction -/

section Nuclear

theorem Reduction.pairs_le_of_mem_upTo {k : Reduction} {total : ℤ} (h : k ∈ upTo total) :
    2 * (k.r + k.i) ≤ k.l := by
  simp only [upTo, List.mem_flatMap, List.mem_map, List.mem_range] at h
  obtain ⟨l, -, r, hr, i, hi, rfl⟩ := h
  dsimp only
  omega

variable {t1 t2 : Triad} {ks : List AxisIndex}

/-- The factorials of a term are those of natural numbers, whatever the exponents. -/
theorem pairs_le_of_mem_nuclearIndices (h : ks ∈ nuclearIndices t1 t2) :
    ∀ k ∈ ks, 2 * (k.reduction.r + k.reduction.i) ≤ k.reduction.l := by
  simp only [nuclearIndices, List.mem_flatMap, List.mem_map] at h
  obtain ⟨kx, hx, ky, hy, kz, hz, ux, -, uy, -, uz, -, rfl⟩ := h
  simp only [List.forall_mem_cons]
  exact ⟨Reduction.pairs_le_of_mem_upTo hx, Reduction.pairs_le_of_mem_upTo hy,
    Reduction.pairs_le_of_mem_upTo hz, by simp⟩

variable {a : Axis} (ha : t1.on a < 0 ∨ t2.on a < 0)

include ha

theorem exists_binomials_eq_zero (h : ks ∈ nuclearIndices t1 t2) :
    ∃ k ∈ ks, k.binomials t1 t2 = 0 := by
  have hmem : a ∈ ks.map (·.axis) := axes_of_mem_nuclearIndices h ▸ Axis.mem_all a
  obtain ⟨k, hk, rfl⟩ := List.mem_map.1 hmem
  refine ⟨k, hk, Nat.mul_eq_zero.2 ?_⟩
  exact ha.imp (fun h1 => binomial_of_neg_left h1 _) fun h2 => binomial_of_neg_left h2 _

theorem nuclearTerm_of_negative (h : ks ∈ nuclearIndices t1 t2) :
    nuclearTerm t1 t2 ks = .zero := by
  obtain ⟨k, hk, hzero⟩ := exists_binomials_eq_zero ha h
  have hany : ks.any (fun k => k.binomials t1 t2 == 0) = true :=
    List.any_eq_true.2 ⟨k, hk, beq_iff_eq.2 hzero⟩
  exact if_pos hany

theorem checkedMagnitude_of_negative (h : ks ∈ nuclearIndices t1 t2) :
    checkedMagnitude t1 t2 ks 1 = .ok 0 := by
  obtain ⟨k, hk, hzero⟩ := exists_binomials_eq_zero ha h
  have hprod : (ks.map fun k => (k.binomials t1 t2 : ℚ) * k.reduction.weight).prod = 0 :=
    List.prod_eq_zero (List.mem_map.2 ⟨k, hk, by rw [hzero, Nat.cast_zero, zero_mul]⟩)
  rw [checkedMagnitude_eq 1 (pairs_le_of_mem_nuclearIndices h), hprod, mul_zero]

theorem hasValue_nuclearAttraction_of_negative {values : String → Option ℚ} {prefactor : String}
    {c : ℚ} (hc : values prefactor = some c) :
    HasValue values (nuclearAttraction t1 t2 prefactor) 0 := by
  have hterms : ∀ t ∈ nuclearTerms t1 t2, t = .zero :=
    List.forall_mem_map.2 fun ks hks => nuclearTerm_of_negative ha hks
  have h := hasValue_mul (hasValue_symbol.2 hc) (hasValue_ofTermList_of_zero values hterms)
  rwa [mul_zero] at h

end Nuclear

/-! ## Overlaps -/

section Overlap

variable {values : String → Option ℚ} {number : ℤ} {pa pb y : ℚ}

theorem overlapTerm_of_negative {e1 e2 : ℤ} (h : e1 < 0 ∨ e2 < 0) (number : ℤ) (j s : ℕ) :
    overlapTerm e1 e2 number j s = .zero := by
  refine if_pos (Nat.mul_eq_zero.2 ?_)
  exact h.imp (fun h1 => binomial_of_neg_left h1 _) fun h2 => binomial_of_neg_left h2 _

/-- The value of an overlap on one axis, 0 if an exponent is negative. -/
noncomputable def integerOverlap (pa pb y : ℚ) (e1 e2 : ℤ) : ℚ :=
  if e1 < 0 ∨ e2 < 0 then 0 else overlapValue pa pb y e1.toNat e2.toNat

/-- The overlap on one axis has a value for any integer exponents. -/
theorem hasValue_overlapSum_integer (h : OverlapValues values number pa pb y) (e1 e2 : ℤ) :
    HasValue values (overlapSum e1 e2 number) (integerOverlap pa pb y e1 e2) := by
  unfold integerOverlap
  split
  · next hneg =>
    refine hasValue_ofTermList_of_zero values fun t ht => ?_
    simp only [overlapTerms, List.mem_flatMap, List.mem_map] at ht
    obtain ⟨j, -, s, -, rfl⟩ := ht
    exact overlapTerm_of_negative hneg number j s
  · next hnat =>
    have h1 : (e1.toNat : ℤ) = e1 := Int.toNat_of_nonneg (by omega)
    have h2 : (e2.toNat : ℤ) = e2 := Int.toNat_of_nonneg (by omega)
    have hvalue := hasValue_overlapSum h e1.toNat e2.toNat
    rwa [h1, h2] at hvalue

variable {pa pb : Axis → ℚ} {t1 t2 : Triad}

theorem hasValue_overlap_integer (h : ∀ a : Axis, OverlapValues values a.number (pa a) (pb a) y)
    (t1 t2 : Triad) : HasValue values (overlap t1 t2)
      (Axis.all.map fun a => integerOverlap (pa a) (pb a) y (t1.on a) (t2.on a)).prod :=
  hasValue_product.2
    ⟨_, haveValues_map fun a _ => hasValue_overlapSum_integer (h a) (t1.on a) (t2.on a), rfl⟩

/-- One vanished axis is enough. -/
theorem hasValue_overlap_of_negative
    (h : ∀ a : Axis, OverlapValues values a.number (pa a) (pb a) y) {a : Axis}
    (ha : t1.on a < 0 ∨ t2.on a < 0) : HasValue values (overlap t1 t2) 0 := by
  have hzero :
      (Axis.all.map fun a => integerOverlap (pa a) (pb a) y (t1.on a) (t2.on a)).prod = 0 :=
    List.prod_eq_zero (List.mem_map.2 ⟨a, Axis.mem_all a, if_pos ha⟩)
  have hvalue := hasValue_overlap_integer h t1 t2
  rwa [hzero] at hvalue

end Overlap

/-! ## Operators without a guard -/

/-- The weight of the kinetic energy's overlap with orbital 2 lowered by two. -/
def loweringWeight (t2 : Triad) (a : Axis) : ℚ := -(((t2.on a * t2.on a - t2.on a : ℤ) : ℚ) / 2)

/-- The kinetic energy with these overlaps of orbital 2 lowered by two. -/
def kineticEnergyOf (lowered : Axis → Expr) (t1 t2 : Triad) (prefactor : String) : Expr :=
  .product [.symbol prefactor,
    .sum (kineticBase t1 t2 :: (Axis.all.map (kineticRaised t1 t2) ++
      Axis.all.map fun a => .product [.const (loweringWeight t2 a), lowered a]))]

/-- The momentum along an axis with this overlap of orbital 2 lowered by one. -/
def momentumOf (lowered : Expr) (t1 t2 : Triad) (a : Axis) (prefactor : String) : Expr :=
  .product [.symbol prefactor,
    .sum [
      .product [.const (t2.on a), .group lowered],
      .product [.const (-2), .symbol "a2", .group (overlap t1 (t2.shift 1 a))]]]

theorem kineticEnergy_eq_kineticEnergyOf (t1 t2 : Triad) (prefactor : String) :
    kineticEnergy t1 t2 prefactor = kineticEnergyOf (loweredOverlap t1 t2 2) t1 t2 prefactor :=
  rfl

theorem momentum_eq_momentumOf (t1 t2 : Triad) (a : Axis) (prefactor : String) :
    momentum t1 t2 a prefactor = momentumOf (loweredOverlap t1 t2 1 a) t1 t2 a prefactor :=
  rfl

section Operators

variable {values : String → Option ℚ} {pa pb : Axis → ℚ} {a2 y : ℚ}
variable (h : OperatorValues values pa pb a2 y) (t1 t2 : Triad)

include h

/-- The explicit zero stands where the overlap of the lowered orbital is 0. -/
theorem exists_hasValue_lowered (step : ℤ) (a : Axis) : ∃ v,
    HasValue values (loweredOverlap t1 t2 step a) v ∧
      HasValue values (overlap t1 (t2.shift (-step) a)) v := by
  unfold loweredOverlap
  by_cases hstep : 0 ≤ t2.on a - step
  · rw [if_pos hstep]
    exact ⟨_, hasValue_overlap_integer h.overlap _ _, hasValue_overlap_integer h.overlap _ _⟩
  · rw [if_neg hstep]
    have hneg : (t2.shift (-step) a).on a < 0 := by
      rw [Triad.on_shift_self]
      omega
    exact ⟨0, hasValue_const.2 rfl, hasValue_overlap_of_negative h.overlap (.inr hneg)⟩

theorem exists_hasValue_kineticBase : ∃ v, HasValue values (kineticBase t1 t2) v :=
  ⟨_, hasValue_mul_mul (hasValue_const.2 rfl) (hasValue_symbol.2 h.a2_eq)
    (hasValue_overlap_integer h.overlap t1 t2)⟩

theorem exists_hasValue_kineticRaised (a : Axis) :
    ∃ v, HasValue values (kineticRaised t1 t2 a) v :=
  ⟨_, hasValue_mul_mul (hasValue_const.2 rfl) (hasValue_power_natCast h.a2_eq 2)
    (hasValue_overlap_integer h.overlap t1 (t2.shift 2 a))⟩

variable {prefactor : String} {c : ℚ} (hc : values prefactor = some c)

include hc

/-- The kinetic energy has a value that depends on the values of the lowered overlaps alone. -/
theorem exists_hasValue_kineticEnergyOf {l l' : Axis → Expr}
    (hl : ∀ a, ∃ v, HasValue values (l a) v ∧ HasValue values (l' a) v) :
    ∃ x, HasValue values (kineticEnergyOf l t1 t2 prefactor) x ∧
      HasValue values (kineticEnergyOf l' t1 t2 prefactor) x := by
  obtain ⟨b, hbase⟩ := exists_hasValue_kineticBase h t1 t2
  choose r hraised using exists_hasValue_kineticRaised h t1 t2
  choose v hv hv' using hl
  have hvalue : ∀ k : Axis → Expr, (∀ a, HasValue values (k a) (v a)) →
      HasValue values (kineticEnergyOf k t1 t2 prefactor)
        (c * (b :: (Axis.all.map r ++ Axis.all.map fun a => loweringWeight t2 a * v a)).sum) := by
    intro k hk
    have hlowered := fun a (_ : a ∈ Axis.all) =>
      hasValue_mul (hasValue_const (v := loweringWeight t2 a).2 rfl) (hk a)
    exact hasValue_mul (hasValue_symbol.2 hc) (hasValue_sum.2
      ⟨_, .cons hbase (List.rel_append (haveValues_map fun a _ => hraised a)
        (haveValues_map hlowered)), rfl⟩)
  exact ⟨_, hvalue l hv, hvalue l' hv'⟩

theorem exists_hasValue_momentumOf (a : Axis) {l l' : Expr}
    (hl : ∃ v, HasValue values l v ∧ HasValue values l' v) :
    ∃ x, HasValue values (momentumOf l t1 t2 a prefactor) x ∧
      HasValue values (momentumOf l' t1 t2 a prefactor) x := by
  obtain ⟨v, hv, hv'⟩ := hl
  have hraised := hasValue_mul_mul (hasValue_const (v := -2).2 rfl) (hasValue_symbol.2 h.a2_eq)
    (hasValue_group.2 (hasValue_overlap_integer h.overlap t1 (t2.shift 1 a)))
  have hlowered : ∀ k, HasValue values k v →
      HasValue values (.product [.const (t2.on a), .group k]) (t2.on a * v) :=
    fun k hk => hasValue_mul (hasValue_const.2 rfl) (hasValue_group.2 hk)
  have hvalue := fun k hk => hasValue_mul (hasValue_symbol.2 hc)
    (hasValue_sum.2 ⟨_, .cons (hlowered k hk) (.cons hraised .nil), rfl⟩)
  exact ⟨_, hvalue l hv, hvalue l' hv'⟩

end Operators

/-- **Integrals of orbitals with a negative exponent vanish, so the guard of the operators changes
no value.** If one of the six exponents is negative, no term of the nuclear attraction sum asks for
the factorial of a negative number, and nuclear attraction and overlap are 0. For any integer
exponents, kinetic energy and momentum have the values of the formulas that lower orbital 2
unconditionally. -/
theorem negative_exponents_vanish (t1 t2 : Triad) :
    ((∃ a, t1.on a < 0 ∨ t2.on a < 0) →
      (∀ ks ∈ nuclearIndices t1 t2, checkedMagnitude t1 t2 ks 1 = .ok 0) ∧
      (∀ (values : String → Option ℚ) (prefactor : String) (c : ℚ), values prefactor = some c →
        (nuclearAttraction t1 t2 prefactor).exactValue values = .ok 0) ∧
      ∀ (values : String → Option ℚ) (pa pb : Axis → ℚ) (y : ℚ),
        (∀ a : Axis, OverlapValues values a.number (pa a) (pb a) y) →
          (overlap t1 t2).exactValue values = .ok 0) ∧
    ∀ (values : String → Option ℚ) (pa pb : Axis → ℚ) (a2 y : ℚ),
      OperatorValues values pa pb a2 y → ∀ (prefactor : String) (c : ℚ),
        values prefactor = some c →
          (∃ x, (kineticEnergy t1 t2 prefactor).exactValue values = .ok x ∧
            (kineticEnergyOf (fun a => overlap t1 (t2.shift (-2) a)) t1 t2 prefactor).exactValue
              values = .ok x) ∧
          ∀ a, ∃ x, (momentum t1 t2 a prefactor).exactValue values = .ok x ∧
            (momentumOf (overlap t1 (t2.shift (-1) a)) t1 t2 a prefactor).exactValue values =
              .ok x := by
  refine ⟨fun ⟨a, ha⟩ => ⟨fun ks hks => checkedMagnitude_of_negative ha hks,
    fun values prefactor c hc => hasValue_nuclearAttraction_of_negative ha hc,
    fun values pa pb y h => hasValue_overlap_of_negative h ha⟩,
    fun values pa pb a2 y h prefactor c hc => ⟨?_, fun a => ?_⟩⟩
  · rw [kineticEnergy_eq_kineticEnergyOf]
    exact exists_hasValue_kineticEnergyOf h t1 t2 hc (exists_hasValue_lowered h t1 t2 2)
  · rw [momentum_eq_momentumOf]
    exact exists_hasValue_momentumOf h t1 t2 hc a (exists_hasValue_lowered h t1 t2 1 a)

/-- A valuation of the symbols of operators. -/
def negativePoint : String → Option ℚ :=
  operatorPoint (fun a => a.number) (fun a => 2 - a.number) (3 / 4) (-5) 1

/-- One negative exponent on an axis with indices, and an orbital y that cannot be lowered by two
on any axis. -/
theorem negative_exponents_vanish_at_point :
    (∃ a, Triad.on ⟨2, -1, 0⟩ a < 0 ∨ Triad.on ⟨0, 3, 1⟩ a < 0) ∧
      ([⟨.x, ⟨2, 0, 1⟩, 1⟩, ⟨.y, ⟨2, 1, 0⟩, 0⟩, ⟨.z, ⟨0, 0, 0⟩, 0⟩] ∈
          nuclearIndices ⟨2, -1, 0⟩ ⟨0, 3, 1⟩ ∧
        checkedMagnitude ⟨2, -1, 0⟩ ⟨0, 3, 1⟩
          [⟨.x, ⟨2, 0, 1⟩, 1⟩, ⟨.y, ⟨2, 1, 0⟩, 0⟩, ⟨.z, ⟨0, 0, 0⟩, 0⟩] 1 = .ok 0) ∧
      (nuclearAttraction ⟨2, -1, 0⟩ ⟨0, 3, 1⟩ "preFactor").exactValue negativePoint = .ok 0 ∧
      (overlap ⟨2, -1, 0⟩ ⟨0, 3, 1⟩).exactValue negativePoint = .ok 0 ∧
      (∃ x, (kineticEnergy ⟨2, 0, 1⟩ ⟨0, 1, 0⟩ "coef").exactValue negativePoint = .ok x ∧
        (kineticEnergyOf (fun a => overlap ⟨2, 0, 1⟩ (Triad.shift ⟨0, 1, 0⟩ (-2) a)) ⟨2, 0, 1⟩
          ⟨0, 1, 0⟩ "coef").exactValue negativePoint = .ok x) ∧
      ∃ x, (momentum ⟨2, 0, 1⟩ ⟨0, 1, 0⟩ .z "preFactor").exactValue negativePoint = .ok x ∧
        (momentumOf (overlap ⟨2, 0, 1⟩ (Triad.shift ⟨0, 1, 0⟩ (-1) .z)) ⟨2, 0, 1⟩ ⟨0, 1, 0⟩ .z
          "preFactor").exactValue negativePoint = .ok x := by
  have hneg : ∃ a, Triad.on ⟨2, -1, 0⟩ a < 0 ∨ Triad.on ⟨0, 3, 1⟩ a < 0 := ⟨.y, by decide⟩
  have hindices : [⟨.x, ⟨2, 0, 1⟩, 1⟩, ⟨.y, ⟨2, 1, 0⟩, 0⟩, ⟨.z, ⟨0, 0, 0⟩, 0⟩] ∈
      nuclearIndices ⟨2, -1, 0⟩ ⟨0, 3, 1⟩ := by decide +kernel
  have hpoint :
      OperatorValues negativePoint (fun a => a.number) (fun a => 2 - a.number) (3 / 4) (-5) :=
    operatorValues_operatorPoint _ _ _ (by decide) _
  obtain ⟨hbuild, hnuclear, hoverlap⟩ := (negative_exponents_vanish ⟨2, -1, 0⟩ ⟨0, 3, 1⟩).1 hneg
  have hoperators := (negative_exponents_vanish ⟨2, 0, 1⟩ ⟨0, 1, 0⟩).2 _ _ _ _ _ hpoint
  exact ⟨hneg, ⟨hindices, hbuild _ hindices⟩, hnuclear _ _ 1 rfl,
    hoverlap _ _ _ _ hpoint.overlap,
    (hoperators "coef" 1 rfl).1, (hoperators "preFactor" 1 rfl).2 .z⟩

end GaussianIntegrals
