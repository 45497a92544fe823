/-
  The live leaves of the integral formulas: which powers the terms that do not vanish reach.

  The leaves of a nuclear attraction are those of the terms whose shares fit
  (`mem_liveLeaves_nuclearAttraction`). Any reductions have shares that fit, so a power of `eps` or
  a Boys function occurs just if some reductions give its exponent or its order: the exponents of
  `eps` go up to the number of pairs on all axes together (`power_eps_mem_iff`), the orders up to
  the degree. In an overlap the exponent of `Y` counts the pairs of one axis, and in the kinetic
  energy one raised exponent gives one pair more (`power_Y_mem_kineticEnergy_iff`).
-/
import GaussianIntegrals.Proofs.FamilyParts
import GaussianIntegrals.Proofs.LiveLeaves
import GaussianIntegrals.Proofs.NuclearEnumeration
import GaussianIntegrals.Proofs.SimplifiedFormulas

namespace GaussianIntegrals

open Expr

/-! ## Symbols -/

theorem toList_centreSymbol (name : String) (number : ℤ) :
    (centreSymbol name number).toList =
      name.toList ++ '(' :: ((toString number).toList ++ [')']) := by
  simp [centreSymbol]

theorem centreSymbol_ne {b : String} (h : '(' ∉ b.toList) (name : String) (number : ℤ) :
    centreSymbol name number ≠ b := by
  rintro rfl
  refine h ?_
  rw [toList_centreSymbol]
  exact List.mem_append_right _ List.mem_cons_self

theorem toList_boysSymbol (n : ℕ) : (boysSymbol n).toList = 'F' :: Nat.toDigits 10 n := by
  rw [boysSymbol, boysName_eq, String.toList_ofList]

/-! ## Terms -/

namespace Summand

/-- The powers and the symbols of a term. -/
def leaves (t : Summand) : List Expr :=
  t.powers.map (fun p => .power p.1 p.2) ++ t.symbols.map .symbol

theorem liveLeaves_toExpr {t : Summand} (h : t.toExpr.vanishes = false) :
    t.toExpr.liveLeaves = t.leaves := by
  unfold toExpr at h ⊢
  split
  · next hzero =>
    rw [if_pos hzero] at h
    cases h
  · next hzero =>
    rw [if_neg hzero] at h
    have hleaves : t.leaves.flatMap liveLeaves = t.leaves := by
      refine flatMap_liveLeaves_of_ownName ?_
      simp only [leaves, List.forall_mem_append, List.forall_mem_map]
      exact ⟨fun _ _ => rfl, fun _ _ => rfl⟩
    rw [liveLeaves_product, h]
    exact hleaves

end Summand

theorem mem_liveLeaves_ofTermList {ts : List Summand} {l : Expr} :
    l ∈ (ofTermList ts).liveLeaves ↔ ∃ t ∈ ts, t.toExpr.vanishes = false ∧ l ∈ t.leaves := by
  rw [ofTermList, mem_liveLeaves_sum]
  simp only [List.mem_map, exists_exists_and_eq_and]
  refine exists_congr fun t => and_congr_right fun _ => ?_
  cases h : t.toExpr.vanishes with
  | true => simp [liveLeaves_eq_nil h]
  | false => simp [Summand.liveLeaves_toExpr h]

/-- The number of pairs that the exponents of two orbitals make on an axis. -/
def pairs (t1 t2 : Axis → ℕ) (a : Axis) : ℕ := (t1 a + t2 a) / 2

/-! ## Nuclear attraction -/

section Nuclear

variable {t1 t2 : Axis → ℕ}

/-- The leaves of a term with these exponents. -/
def TermExponents.leaves (e : TermExponents) : List Expr :=
  e.powers.map (fun p => .power p.1 p.2) ++ [.symbol (boysSymbol e.order)]

theorem vanishes_nuclearSum :
    (ofTermList (nuclearTerms (.ofExponents t1) (.ofExponents t2))).vanishes = false := by
  obtain ⟨ks, kss, hindices, hfirst, -⟩ := exists_kept_nuclearTerms t1 t2
  rw [nuclearTerms, hindices, ofTermList, List.map_cons, List.map_cons, vanishes_sum,
    List.all_cons, vanishes_nuclearTerm, hfirst, Bool.false_and]

/-- The leaves come from the terms whose shares fit. -/
theorem mem_liveLeaves_nuclearAttraction {p : String} {l : Expr} :
    l ∈ (nuclearAttraction (.ofExponents t1) (.ofExponents t2) p).liveLeaves ↔
      l = .symbol p ∨ ∃ k u, (∀ a, AxisIndex.Admissible t1 t2 ⟨a, k a, u a⟩) ∧
        (∀ a, AxisIndex.Fits t1 t2 ⟨a, k a, u a⟩) ∧ l ∈ (tripleExponents t1 t2 k u).leaves := by
  have hvanishes : (nuclearAttraction (.ofExponents t1) (.ofExponents t2) p).vanishes = false :=
    vanishes_product_of_forall (List.forall_mem_cons.2
      ⟨rfl, List.forall_mem_singleton.2 vanishes_nuclearSum⟩)
  have hleaves : ∀ k u, (∀ a, AxisIndex.Admissible t1 t2 ⟨a, k a, u a⟩) →
      (∀ a, AxisIndex.Fits t1 t2 ⟨a, k a, u a⟩) →
      (nuclearTerm (.ofExponents t1) (.ofExponents t2) (tripleOf k u)).leaves =
        (tripleExponents t1 t2 k u).leaves := by
    intro k u hadm hfits
    obtain ⟨n, -, hterm⟩ := exists_nuclearTerm_tripleOf hadm hfits
    rw [hterm]
    rfl
  rw [nuclearAttraction, mem_liveLeaves_product hvanishes, List.exists_mem_cons_iff,
    List.exists_mem_cons_iff, mem_liveLeaves_ofTermList]
  refine or_congr List.mem_singleton ?_
  rw [or_iff_left (by simp)]
  constructor
  · rintro ⟨_, ht, hkept, hl⟩
    obtain ⟨ks, hks, rfl⟩ := List.mem_map.1 ht
    obtain ⟨k, u, rfl⟩ := exists_eq_tripleOf (axes_of_mem_nuclearIndices hks)
    have hadm := tripleOf_mem_nuclearIndices_iff.1 hks
    rw [vanishes_nuclearTerm, kept_tripleOf_iff fun a => (hadm a).share_le] at hkept
    exact ⟨k, u, hadm, hkept, hleaves k u hadm hkept ▸ hl⟩
  · rintro ⟨k, u, hadm, hfits, hl⟩
    refine ⟨_, List.mem_map_of_mem (tripleOf_mem_nuclearIndices_iff.2 hadm), ?_,
      (hleaves k u hadm hfits).symm ▸ hl⟩
    rw [vanishes_nuclearTerm]
    exact (kept_tripleOf_iff fun a => (hadm a).share_le).2 hfits

/-- Any reductions have shares that fit. -/
theorem exists_fitting (t1 t2 : Axis → ℕ) {k : Axis → Reduction}
    (h : ∀ a, (k a).l ≤ t1 a + t2 a ∧ 2 * ((k a).r + (k a).i) ≤ (k a).l) :
    ∃ u : Axis → ℕ, (∀ a, AxisIndex.Admissible t1 t2 ⟨a, k a, u a⟩) ∧
      ∀ a, AxisIndex.Fits t1 t2 ⟨a, k a, u a⟩ := by
  refine ⟨fun a => min (k a).l (t1 a), fun a => ⟨(h a).1, (h a).2, Nat.min_le_left _ _⟩,
    fun a => ⟨Nat.min_le_right _ _, ?_⟩⟩
  have hl := (h a).1
  dsimp only
  omega

/-- Every order up to the degree is that of a term. -/
theorem symbol_boys_mem {n : ℕ} (h : n ≤ Axis.total t1 + Axis.total t2) (p : String) :
    .symbol (boysSymbol n) ∈
      (nuclearAttraction (.ofExponents t1) (.ofExponents t2) p).liveLeaves := by
  have htotal : n ≤ Axis.total fun a => t1 a + t2 a := by
    rw [Axis.total_eq] at h ⊢
    rw [Axis.total_eq] at h
    omega
  obtain ⟨f, hf, rfl⟩ := Axis.exists_total_eq htotal
  -- no pairs: the order is the sum of the `l`
  obtain ⟨u, hadm, hfits⟩ := exists_fitting t1 t2
    (k := fun a => ⟨f a, 0, 0⟩) fun a => ⟨hf a, Nat.zero_le _⟩
  exact mem_liveLeaves_nuclearAttraction.2
    (.inr ⟨_, u, hadm, hfits, List.mem_append_right _ List.mem_cons_self⟩)

/-- The exponents of `eps` go up to the number of pairs. -/
theorem power_eps_mem_iff {p : String} {m : ℤ} :
    .power "eps" m ∈ (nuclearAttraction (.ofExponents t1) (.ofExponents t2) p).liveLeaves ↔
      ∃ n : ℕ, n ≤ Axis.total (pairs t1 t2) ∧ m = n := by
  rw [mem_liveLeaves_nuclearAttraction]
  constructor
  · rintro (h | ⟨k, u, hadm, -, h⟩)
    · cases h
    · refine ⟨Axis.total fun a => (k a).r + (k a).i, Axis.total_le_total fun a => ?_, ?_⟩
      · have horder := (hadm a).order_le
        have hpairs := (hadm a).pairs_le
        rw [pairs]
        dsimp only at horder hpairs
        omega
      · have hcentre : ∀ w number, centreSymbol w number ≠ "eps" := centreSymbol_ne (by decide)
        simpa [TermExponents.leaves, TermExponents.powers, tripleExponents, Ne.symm (hcentre _ _)]
          using h
  · rintro ⟨n, hn, rfl⟩
    obtain ⟨f, hf, rfl⟩ := Axis.exists_total_eq hn
    obtain ⟨u, hadm, hfits⟩ := exists_fitting t1 t2
      (k := fun a => ⟨2 * f a, f a, 0⟩) fun a => by
        have hle := hf a
        rw [pairs] at hle
        dsimp only
        omega
    refine .inr ⟨_, u, hadm, hfits, ?_⟩
    simp [TermExponents.leaves, TermExponents.powers, tripleExponents]

end Nuclear

/-! ## Overlaps -/

section Overlap

theorem eq_of_power_Y_mem {e1 e2 number m : ℤ} {j s : ℕ}
    (h : .power "Y" m ∈ (overlapTerm e1 e2 number j s).leaves) : m = -j := by
  have hcentre : ∀ w number, centreSymbol w number ≠ "Y" := centreSymbol_ne (by decide)
  unfold overlapTerm at h
  dsimp only at h
  split at h
  · exact absurd h (by simp [Summand.leaves, Summand.zero])
  · simpa [Summand.leaves, Ne.symm (hcentre _ _)] using h

/-- The exponents of `Y` count the pairs of an axis. -/
theorem power_Y_mem_overlapSum_iff {e1 e2 : ℕ} {number m : ℤ} :
    .power "Y" m ∈ (overlapSum e1 e2 number).liveLeaves ↔
      ∃ j : ℕ, j ≤ (e1 + e2) / 2 ∧ m = -j := by
  rw [overlapSum, mem_liveLeaves_ofTermList]
  simp only [overlapTerms, toNat_half_add_one, List.mem_flatMap, List.mem_map, List.mem_range,
    Nat.lt_succ_iff]
  constructor
  · rintro ⟨_, ⟨j, hj, s, -, rfl⟩, -, hmem⟩
    exact ⟨j, hj, eq_of_power_Y_mem hmem⟩
  · rintro ⟨j, hj, rfl⟩
    have hkept : (overlapTerm e1 e2 number j (min (2 * j) e1)).toExpr.vanishes = false :=
      vanishes_overlapTerm number (Nat.min_le_left _ _) (Nat.min_le_right _ _) (by omega)
    refine ⟨_, ⟨j, hj, _, Nat.min_le_left (2 * j) e1, rfl⟩, hkept, ?_⟩
    unfold overlapTerm at hkept ⊢
    dsimp only at hkept ⊢
    split
    · next hzero =>
      rw [if_pos hzero] at hkept
      cases hkept
    · simp [Summand.leaves]

variable {t1 t2 : Axis → ℕ} {m : ℤ}

theorem power_Y_mem_overlap_iff :
    .power "Y" m ∈ (overlap (.ofExponents t1) (.ofExponents t2)).liveLeaves ↔
      ∃ (a : Axis) (j : ℕ), j ≤ (t1 a + t2 a) / 2 ∧ m = -j := by
  rw [overlap, mem_liveLeaves_product (vanishes_overlap t1 t2)]
  simp only [Axis.mem_map_all, exists_exists_eq_and, Triad.on_ofExponents,
    power_Y_mem_overlapSum_iff]

/-- Weights and symbols beside an overlap add no power of `Y`. -/
theorem power_Y_mem_weighted_iff (fs : List Expr) {e : Expr}
    (h : (product (fs ++ [e])).vanishes = false) (hfs : ∀ f ∈ fs, .power "Y" m ∉ f.liveLeaves) :
    .power "Y" m ∈ (product (fs ++ [e])).liveLeaves ↔ .power "Y" m ∈ e.liveLeaves := by
  rw [mem_liveLeaves_product h]
  constructor
  · rintro ⟨f, hf, hmem⟩
    rcases List.mem_append.1 hf with hf | hf
    · exact absurd hmem (hfs f hf)
    · rwa [List.mem_singleton.1 hf] at hmem
  · exact fun hmem => ⟨e, List.mem_append_right _ List.mem_cons_self, hmem⟩

theorem power_Y_mem_kineticBase_iff :
    .power "Y" m ∈ (kineticBase (.ofExponents t1) (.ofExponents t2)).liveLeaves ↔
      .power "Y" m ∈ (overlap (.ofExponents t1) (.ofExponents t2)).liveLeaves :=
  power_Y_mem_weighted_iff [.const _, .symbol "a2"] (vanishes_kineticBase t1 t2)
    (by simp [liveLeaves])

theorem power_Y_mem_kineticRaised_iff {a : Axis} :
    .power "Y" m ∈ (kineticRaised (.ofExponents t1) (.ofExponents t2) a).liveLeaves ↔
      .power "Y" m ∈ (overlap (.ofExponents t1) (.ofExponents (t2 + 2 • a.unit))).liveLeaves := by
  rw [← Triad.shift_ofExponents]
  exact power_Y_mem_weighted_iff [.const _, .power "a2" 2] (vanishes_kineticRaised t1 t2 a)
    (by simp [liveLeaves])

theorem power_Y_mem_of_kineticLowered {a : Axis}
    (h : .power "Y" m ∈ (kineticLowered (.ofExponents t1) (.ofExponents t2) a).liveLeaves) :
    .power "Y" m ∈ (overlap (.ofExponents t1) (.ofExponents (t2 - 2 • a.unit))).liveLeaves := by
  have hvanishes := vanishes_kineticLowered t1 t2 a
  by_cases ha : 2 ≤ t2 a
  · rw [decide_eq_true ha] at hvanishes
    have hmem := (power_Y_mem_weighted_iff [.const _] hvanishes (by simp [liveLeaves])).1 h
    have hlowered := loweredOverlap_ofExponents t1 t2 2 a
    rw [if_pos ha] at hlowered
    exact hlowered ▸ hmem
  · rw [decide_eq_false ha] at hvanishes
    rw [liveLeaves_eq_nil hvanishes] at h
    exact absurd h List.not_mem_nil

end Overlap

/-! ## Kinetic energy -/

section Kinetic

variable {t1 t2 : Axis → ℕ} {m : ℤ}

theorem mem_liveLeaves_kineticEnergy {p : String} {l : Expr} :
    l ∈ (kineticEnergy (.ofExponents t1) (.ofExponents t2) p).liveLeaves ↔
      l = .symbol p ∨ l ∈ (kineticBase (.ofExponents t1) (.ofExponents t2)).liveLeaves ∨
        (∃ a, l ∈ (kineticRaised (.ofExponents t1) (.ofExponents t2) a).liveLeaves) ∨
        ∃ a, l ∈ (kineticLowered (.ofExponents t1) (.ofExponents t2) a).liveLeaves := by
  have hvanishes : (kineticEnergy (.ofExponents t1) (.ofExponents t2) p).vanishes = false := by
    refine vanishes_product_of_forall (List.forall_mem_cons.2
      ⟨rfl, List.forall_mem_singleton.2 ?_⟩)
    rw [vanishes_sum, List.all_cons, vanishes_kineticBase, Bool.false_and]
  rw [kineticEnergy, mem_liveLeaves_product hvanishes, List.exists_mem_cons_iff,
    List.exists_mem_cons_iff, mem_liveLeaves_sum, List.exists_mem_cons_iff]
  refine or_congr List.mem_singleton ?_
  rw [or_iff_left (by simp)]
  refine or_congr_right ?_
  simp only [List.mem_append, or_and_right, exists_or, Axis.mem_map_all, exists_exists_eq_and]

/-- The exponents of `Y` go up to the largest number of pairs on an axis, and one further. -/
theorem power_Y_mem_kineticEnergy_iff {p : String} :
    .power "Y" m ∈ (kineticEnergy (.ofExponents t1) (.ofExponents t2) p).liveLeaves ↔
      ∃ j : ℕ, j ≤ 1 + Axis.largest (pairs t1 t2) ∧ m = -j := by
  have hlargest : ∀ a, (t1 a + t2 a) / 2 ≤ Axis.largest (pairs t1 t2) := fun a =>
    Axis.le_largest_iff.2 ⟨a, Nat.le_refl _⟩
  rw [mem_liveLeaves_kineticEnergy, power_Y_mem_kineticBase_iff, power_Y_mem_overlap_iff]
  simp only [power_Y_mem_kineticRaised_iff, power_Y_mem_overlap_iff]
  constructor
  · rintro (h | ⟨b, j, hj, rfl⟩ | ⟨a, b, j, hj, rfl⟩ | ⟨a, h⟩)
    · cases h
    · have hb := hlargest b
      exact ⟨j, by omega, rfl⟩
    · have hb := hlargest b
      have hunit : (t2 + 2 • a.unit) b ≤ t2 b + 2 :=
        Nat.add_le_add_left (Nat.mul_le_mul_left 2 (a.unit_le_one b)) _
      exact ⟨j, by omega, rfl⟩
    · obtain ⟨b, j, hj, rfl⟩ := power_Y_mem_overlap_iff.1 (power_Y_mem_of_kineticLowered h)
      have hb := hlargest b
      have hunit : (t2 - 2 • a.unit) b ≤ t2 b := Nat.sub_le _ _
      exact ⟨j, by omega, rfl⟩
  · rintro ⟨j, hj, rfl⟩
    obtain ⟨a, ha⟩ := Axis.le_largest_iff.1 (Nat.sub_le_iff_le_add'.2 hj)
    -- the exponent raised on the axis with the most pairs
    refine .inr (.inr (.inl ⟨a, a, j, ?_, rfl⟩))
    rw [pairs] at ha
    rw [Pi.add_apply, Pi.smul_apply, Axis.unit_self, smul_eq_mul]
    omega

end Kinetic

end GaussianIntegrals
