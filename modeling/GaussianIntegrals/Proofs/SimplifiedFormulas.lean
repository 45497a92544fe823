/-
  What is left of the integral formulas when they have been simplified, for orbitals of any
  exponents (`simplified_formulas_keep_terms`): the terms that have not vanished, in their order,
  no factors 1, and nothing for a second run to do.

  All this comes from which terms vanish. The first term of an overlap and of a nuclear attraction
  never does. If an exponent is there to be shared out, a term with one reduction, or one pair of
  them in an overlap, does not vanish either, so that each of these sums is a single term or keeps
  two of them (`Lasting`). In the kinetic energy and the momentum a lowered overlap is missing
  just where its weight is 0.
-/
import GaussianIntegrals.Proofs.FormulaTexts
import GaussianIntegrals.Proofs.LastingSums

namespace GaussianIntegrals

open Expr

/-! ## Terms -/

namespace Summand

theorem vanishes_toExpr (t : Summand) :
    t.toExpr.vanishes = (t.vanished || t.coefficient == 0) := by
  unfold toExpr
  split
  · next h =>
    rw [h]
    rfl
  · next h =>
    have hc : t.coefficient ≠ 0 := fun hc => h (by rw [hc]; simp)
    rw [Bool.eq_false_iff.2 h]
    refine vanishes_product_of_forall ?_
    simp only [List.mem_cons, List.mem_append, List.mem_map]
    rintro f (rfl | ⟨q, -, rfl⟩ | ⟨n, -, rfl⟩)
    · exact beq_eq_false_iff_ne.2 hc
    · rfl
    · rfl

theorem lasting_toExpr (t : Summand) : EveryPart Lasting t.toExpr := by
  unfold toExpr
  split
  · exact lasting_of_leaf rfl
  · refine lasting_product ?_
    simp only [List.mem_cons, List.mem_append, List.mem_map]
    rintro f (rfl | ⟨q, -, rfl⟩ | ⟨n, -, rfl⟩)
    · exact lasting_of_leaf rfl
    · exact lasting_of_leaf rfl
    · exact lasting_of_leaf rfl

end Summand

/-! ## Overlaps -/

section Overlap

variable (e1 e2 : ℕ) (number : ℤ)

theorem vanishes_overlapTerm {e1 e2 j s : ℕ} (hs : s ≤ 2 * j) (h1 : s ≤ e1) (h2 : 2 * j - s ≤ e2) :
    (overlapTerm e1 e2 number j s).toExpr.vanishes = false := by
  have hbinomials : binomial e1 s * binomial e2 (2 * (j : ℤ) - s) ≠ 0 := by
    rw [binomial_natCast, binomial_two_mul_sub hs]
    exact Nat.mul_ne_zero (Nat.choose_pos h1).ne' (Nat.choose_pos h2).ne'
  have hpower : Nat.pow 2 j ≠ 0 := (Nat.pow_pos (by decide)).ne'
  rw [overlapTerm, if_neg hbinomials, Summand.vanishes_toExpr, Bool.false_or, beq_eq_false_iff_ne]
  exact div_ne_zero
    (Nat.cast_ne_zero.2 (Nat.mul_ne_zero hbinomials (oddProduct_pos _).ne'))
    (Nat.cast_ne_zero.2 hpower)

/-- The terms of an overlap: the one without moments, and those with moments. -/
theorem overlapTerms_eq :
    overlapTerms e1 e2 number = overlapTerm e1 e2 number 0 0 ::
      (List.range ((e1 + e2) / 2)).flatMap fun j =>
        (List.range (2 * (j + 1) + 1)).map (overlapTerm e1 e2 number (j + 1)) := by
  rw [overlapTerms, toNat_half_add_one, List.range_succ_eq_map, List.flatMap_cons, List.flatMap_map]
  rfl

theorem vanishes_overlapSum : (overlapSum e1 e2 number).vanishes = false := by
  rw [overlapSum, ofTermList, overlapTerms_eq, List.map_cons, vanishes_sum, List.all_cons,
    vanishes_overlapTerm number (Nat.zero_le _) (Nat.zero_le _) (Nat.zero_le _), Bool.false_and]

/-- If there is a pair of exponents, one of its shares gives a term. -/
theorem exists_share (h : 2 ≤ e1 + e2) : ∃ s ≤ 2, s ≤ e1 ∧ 2 - s ≤ e2 :=
  ⟨min 2 e1, by omega, by omega, by omega⟩

theorem lasting_overlapSum : EveryPart Lasting (overlapSum e1 e2 number) := by
  refine everyPart_sum.2 ⟨fun hlength => ?_,
    List.forall_mem_map.2 fun t _ => Summand.lasting_toExpr t⟩
  rw [overlapTerms_eq, List.map_cons] at hlength ⊢
  have hpairs : 0 < (e1 + e2) / 2 := by
    by_contra hnone
    rw [Nat.eq_zero_of_not_pos hnone] at hlength
    exact absurd hlength (by simp)
  obtain ⟨s, hs, h1, h2⟩ := exists_share e1 e2 (by omega)
  -- the term with one pair, shared in this way
  rw [List.tail_cons, List.all_eq_false]
  refine ⟨_, List.mem_map_of_mem (List.mem_flatMap.2 ⟨0, List.mem_range.2 hpairs,
    List.mem_map_of_mem (List.mem_range.2 (Nat.lt_succ_of_le hs))⟩), ?_⟩
  rw [vanishes_overlapTerm number hs h1 h2]
  exact Bool.false_ne_true

variable (t1 t2 : Axis → ℕ)

theorem vanishes_overlap : (overlap (.ofExponents t1) (.ofExponents t2)).vanishes = false := by
  refine vanishes_product_of_forall (List.forall_mem_map.2 fun a _ => ?_)
  rw [Triad.on_ofExponents, Triad.on_ofExponents]
  exact vanishes_overlapSum _ _ _

theorem lasting_overlap : EveryPart Lasting (overlap (.ofExponents t1) (.ofExponents t2)) := by
  refine lasting_product (List.forall_mem_map.2 fun a _ => ?_)
  rw [Triad.on_ofExponents, Triad.on_ofExponents]
  exact lasting_overlapSum _ _ _

/-- A lowered overlap is the overlap of the lowered exponents if there are enough of them. -/
theorem loweredOverlap_ofExponents (n : ℕ) (a : Axis) :
    loweredOverlap (.ofExponents t1) (.ofExponents t2) n a =
      if n ≤ t2 a then overlap (.ofExponents t1) (.ofExponents (t2 - n • a.unit)) else .zero := by
  unfold loweredOverlap
  rw [Triad.on_ofExponents]
  by_cases h : n ≤ t2 a
  · rw [if_pos (by omega), if_pos h, Triad.shift_neg_ofExponents a h]
  · rw [if_neg (by omega), if_neg h]

theorem vanishes_loweredOverlap (n : ℕ) (a : Axis) :
    (loweredOverlap (.ofExponents t1) (.ofExponents t2) n a).vanishes = !decide (n ≤ t2 a) := by
  rw [loweredOverlap_ofExponents]
  split
  · next h => rw [vanishes_overlap, decide_eq_true h, Bool.not_true]
  · next h =>
    rw [decide_eq_false h]
    rfl

theorem lasting_loweredOverlap (n : ℕ) (a : Axis) :
    EveryPart Lasting (loweredOverlap (.ofExponents t1) (.ofExponents t2) n a) := by
  rw [loweredOverlap_ofExponents]
  split
  · exact lasting_overlap _ _
  · exact lasting_of_leaf rfl

theorem vanishes_raisedOverlap (n : ℕ) (a : Axis) :
    (overlap (.ofExponents t1) ((Triad.ofExponents t2).shift n a)).vanishes = false := by
  rw [Triad.shift_ofExponents]
  exact vanishes_overlap _ _

theorem lasting_raisedOverlap (n : ℕ) (a : Axis) :
    EveryPart Lasting (overlap (.ofExponents t1) ((Triad.ofExponents t2).shift n a)) := by
  rw [Triad.shift_ofExponents]
  exact lasting_overlap _ _

end Overlap

/-! ## Nuclear attraction -/

section Nuclear

theorem weight_ne_zero (k : Reduction) : k.weight ≠ 0 := by
  refine div_ne_zero (Nat.cast_ne_zero.2 (factorial_pos _).ne') (Nat.cast_ne_zero.2 ?_)
  exact Nat.mul_ne_zero (Nat.mul_ne_zero (factorial_pos _).ne' (factorial_pos _).ne')
    (factorial_pos _).ne'

/-- A term that has not vanished has a coefficient. -/
theorem vanishes_nuclearTerm (t1 t2 : Triad) (ks : List AxisIndex) :
    (nuclearTerm t1 t2 ks).toExpr.vanishes = (nuclearTerm t1 t2 ks).vanished := by
  rw [Summand.vanishes_toExpr]
  unfold nuclearTerm
  split
  · rfl
  · next h =>
    have hmagnitude : (ks.map fun k => (k.binomials t1 t2 : ℚ) * k.reduction.weight).prod ≠ 0 := by
      refine List.prod_ne_zero fun hzero => ?_
      obtain ⟨k, hk, hzero⟩ := List.mem_map.1 hzero
      exact mul_ne_zero (Nat.cast_ne_zero.2 (binomials_ne_zero h k hk)) (weight_ne_zero _) hzero
    dsimp only
    rw [Bool.false_or, beq_eq_false_iff_ne, foldl_mul_eq_prod]
    split
    · exact neg_ne_zero.2 hmagnitude
    · exact hmagnitude

theorem vanished_nuclearTerm {t1 t2 : Triad} {ks : List AxisIndex}
    (h : ∀ k ∈ ks, k.binomials t1 t2 ≠ 0) : (nuclearTerm t1 t2 ks).vanished = false := by
  rw [nuclearTerm, if_neg]
  simpa using h

theorem filter_nuclearTerms (t1 t2 : Triad) (kss : List (List AxisIndex)) :
    ((kss.map (nuclearTerm t1 t2)).map Summand.toExpr).filter (!·.vanishes) =
      ((kss.map (nuclearTerm t1 t2)).filter (!·.vanished)).map Summand.toExpr := by
  rw [List.filter_map, List.filter_map, List.filter_map, List.map_map, List.map_map]
  congr 1
  refine List.filter_congr fun ks _ => ?_
  simp only [Function.comp_apply, vanishes_nuclearTerm]

variable (t1 t2 : Axis → ℕ)

/-- The index with one reduction on one axis, shared with orbital 1 if it can. -/
def singleReduction (a b : Axis) : AxisIndex := ⟨b, ⟨a.unit b, 0, 0⟩, min (a.unit b) (t1 b)⟩

theorem mem_upTo_of_le {l n : ℕ} (h : l ≤ n) : ⟨l, 0, 0⟩ ∈ Reduction.upTo n := by
  simp only [Reduction.upTo, List.mem_flatMap, List.mem_map, List.mem_range]
  exact ⟨l, by omega, 0, Nat.succ_pos _, 0, Nat.succ_pos _, rfl⟩

theorem unit_le {a : Axis} (h : t1 a + t2 a ≠ 0) (b : Axis) : a.unit b ≤ t1 b + t2 b := by
  by_cases hb : b = a
  · rw [hb, Axis.unit_self]
    omega
  · rw [Axis.unit_of_ne hb]
    omega

theorem singleReduction_mem {a : Axis} (h : t1 a + t2 a ≠ 0) :
    Axis.all.map (singleReduction t1 a) ∈ nuclearIndices (.ofExponents t1) (.ofExponents t2) := by
  have hupTo : ∀ b, ⟨a.unit b, 0, 0⟩ ∈
      Reduction.upTo ((Triad.ofExponents t1).on b + (Triad.ofExponents t2).on b) := by
    intro b
    rw [Triad.on_ofExponents, Triad.on_ofExponents, ← Int.natCast_add]
    exact mem_upTo_of_le (unit_le t1 t2 h b)
  have hshare : ∀ b, min (a.unit b) (t1 b) < a.unit b + 1 := fun b =>
    Nat.lt_succ_of_le (Nat.min_le_left _ _)
  simp only [nuclearIndices, List.mem_flatMap, List.mem_map, List.mem_range]
  exact ⟨_, hupTo .x, _, hupTo .y, _, hupTo .z, _, hshare .x, _, hshare .y, _, hshare .z, rfl⟩

theorem vanished_singleReduction {a : Axis} (h : t1 a + t2 a ≠ 0) :
    (nuclearTerm (.ofExponents t1) (.ofExponents t2)
      (Axis.all.map (singleReduction t1 a))).vanished = false := by
  refine vanished_nuclearTerm (List.forall_mem_map.2 fun b _ => ?_)
  have hunit := unit_le t1 t2 h b
  have hrest : a.unit b - min (a.unit b) (t1 b) ≤ t2 b := by omega
  exact binomials_ne_zero_of_le (Nat.min_le_left _ _) (Nat.min_le_right _ _) hrest

/-- The index with one reduction is another one than the first of all. -/
theorem singleReduction_ne (a : Axis) :
    Axis.all.map (singleReduction t1 a) ≠
      [⟨.x, ⟨0, 0, 0⟩, 0⟩, ⟨.y, ⟨0, 0, 0⟩, 0⟩, ⟨.z, ⟨0, 0, 0⟩, 0⟩] := by
  intro h
  have horders := congrArg (List.map fun k => k.reduction.l) h
  have hunit : ∀ b, a.unit b = 0 := by
    simp only [Axis.all, List.map_cons, List.map_nil, singleReduction, List.cons.injEq] at horders
    intro b
    cases b
    · exact horders.1
    · exact horders.2.1
    · exact horders.2.2.1
  exact absurd (hunit a) (by rw [Axis.unit_self]; decide)

/-- The first term of the sum has not vanished, and if there is an exponent, another has not. -/
theorem exists_kept_nuclearTerms :
    ∃ ks kss, nuclearIndices (.ofExponents t1) (.ofExponents t2) = ks :: kss ∧
      (nuclearTerm (.ofExponents t1) (.ofExponents t2) ks).vanished = false ∧
      ∀ a, t1 a + t2 a ≠ 0 →
        ∃ ks' ∈ kss, (nuclearTerm (.ofExponents t1) (.ofExponents t2) ks').vanished = false := by
  obtain ⟨rest, hrest⟩ := exists_nuclearIndices_eq t1 t2
  refine ⟨_, rest, hrest, vanished_nuclearTerm fun k hk => ?_, fun a ha => ?_⟩
  · simp only [List.mem_cons, List.not_mem_nil, or_false] at hk
    rcases hk with rfl | rfl | rfl
    all_goals exact binomials_ne_zero_of_le (Nat.le_refl 0) (Nat.zero_le _) (Nat.zero_le _)
  · have hmem := singleReduction_mem t1 t2 ha
    rw [hrest, List.mem_cons] at hmem
    exact ⟨_, hmem.resolve_left (singleReduction_ne t1 a), vanished_singleReduction t1 t2 ha⟩

theorem all_vanishes_nuclearTerms {t1 t2 : Triad} {kss : List (List AxisIndex)}
    (h : ∃ ks ∈ kss, (nuclearTerm t1 t2 ks).vanished = false) :
    ((kss.map (nuclearTerm t1 t2)).map Summand.toExpr).all vanishes = false := by
  obtain ⟨ks, hks, hvanished⟩ := h
  rw [List.all_eq_false]
  refine ⟨_, List.mem_map_of_mem (List.mem_map_of_mem hks), ?_⟩
  rw [vanishes_nuclearTerm, hvanished]
  exact Bool.false_ne_true

theorem exponents_cases : (∃ a, t1 a + t2 a ≠ 0) ∨ t1 = 0 ∧ t2 = 0 := by
  refine or_iff_not_imp_left.2 fun h => ?_
  simp only [not_exists, not_not, Nat.add_eq_zero_iff] at h
  exact ⟨funext fun a => (h a).1, funext fun a => (h a).2⟩

theorem lasting_nuclearSum :
    EveryPart Lasting (ofTermList (nuclearTerms (.ofExponents t1) (.ofExponents t2))) := by
  refine everyPart_sum.2 ⟨?_, List.forall_mem_map.2 fun t _ => Summand.lasting_toExpr t⟩
  obtain ⟨a, ha⟩ | ⟨rfl, rfl⟩ := exponents_cases t1 t2
  · obtain ⟨ks, kss, hindices, -, hothers⟩ := exists_kept_nuclearTerms t1 t2
    rw [nuclearTerms, hindices]
    exact fun _ => all_vanishes_nuclearTerms (hothers a ha)
  · exact fun hlength => absurd hlength (by decide)

/-- Without exponents there is a single term, the Boys function of order 0. -/
theorem simplify_nuclearAttraction_zero (p : String) :
    simplify .nuclear (nuclearAttraction (.ofExponents 0) (.ofExponents 0) p) =
      .product [simplify .nuclear (.symbol p),
        simplify .nuclear (ofTermList (nuclearTerms (.ofExponents 0) (.ofExponents 0)))] :=
  simplify_prefactor .nuclear p (by decide +kernel) (by decide +kernel) (by decide +kernel)
    (by decide +kernel)

/-- The prefactor stands beside the terms that have not vanished. -/
theorem simplify_nuclearAttraction (p : String) :
    simplify .nuclear (nuclearAttraction (.ofExponents t1) (.ofExponents t2) p) =
      .product [simplify .nuclear (.symbol p),
        ofTerms (((nuclearTerms (.ofExponents t1) (.ofExponents t2)).filter (!·.vanished)).map
          (simplify .nuclear ∘ Summand.toExpr))] := by
  obtain ⟨ks, kss, hindices, hfirst, hothers⟩ := exists_kept_nuclearTerms t1 t2
  have hsum : simplify .nuclear (ofTermList (nuclearTerms (.ofExponents t1) (.ofExponents t2))) =
      ofTerms (((nuclearTerms (.ofExponents t1) (.ofExponents t2)).filter (!·.vanished)).map
        (simplify .nuclear ∘ Summand.toExpr)) := by
    rw [nuclearTerms, hindices, ofTermList, List.map_cons, List.map_cons, simplify_sum,
      filter_nuclearTerms, List.filter_cons_of_pos (by rw [hfirst]; rfl), ← List.map_cons,
      List.map_map]
  rw [← hsum]
  obtain ⟨a, ha⟩ | ⟨rfl, rfl⟩ := exponents_cases t1 t2
  · rw [nuclearAttraction, nuclearTerms, hindices, ofTermList, List.map_cons, List.map_cons]
    exact simplify_prefactor_sum .nuclear p _ (all_vanishes_nuclearTerms (hothers a ha))
  · exact simplify_nuclearAttraction_zero p

end Nuclear

/-! ## Kinetic energy -/

section Kinetic

variable (t1 t2 : Axis → ℕ)

theorem vanishes_kineticBase :
    (kineticBase (.ofExponents t1) (.ofExponents t2)).vanishes = false := by
  refine vanishes_product_of_forall ?_
  simp only [List.forall_mem_cons]
  refine ⟨beq_eq_false_iff_ne.2 (Int.cast_ne_zero.2 (ne_of_gt ?_)), rfl, vanishes_overlap t1 t2,
    List.forall_mem_nil _⟩
  simp only [Axis.all, List.foldl_cons, List.foldl_nil, Triad.on_ofExponents]
  positivity

theorem vanishes_kineticRaised (a : Axis) :
    (kineticRaised (.ofExponents t1) (.ofExponents t2) a).vanishes = false := by
  refine vanishes_product_of_forall ?_
  simp only [List.forall_mem_cons]
  exact ⟨rfl, rfl, vanishes_raisedOverlap t1 t2 2 a, List.forall_mem_nil _⟩

/-- A lowered overlap with a weight vanishes just where it is missing, if the weight does not. -/
theorem vanishes_weighted {w : ℚ} {e : Expr} {n : ℕ} {a : Axis} (hw : n ≤ t2 a → w ≠ 0)
    (he : e.vanishes = !decide (n ≤ t2 a)) :
    (Expr.product [.const w, e]).vanishes = !decide (n ≤ t2 a) := by
  rw [vanishes_product, List.any_cons, List.any_cons, List.any_nil, Bool.or_false, he]
  by_cases hn : n ≤ t2 a
  · rw [decide_eq_true hn, vanishes, beq_eq_false_iff_ne.2 (hw hn), Bool.false_or]
  · rw [decide_eq_false hn, Bool.not_false, Bool.or_true]

theorem vanishes_kineticLowered (a : Axis) :
    (kineticLowered (.ofExponents t1) (.ofExponents t2) a).vanishes = !decide (2 ≤ t2 a) := by
  refine vanishes_weighted t2 (fun h => ?_) (vanishes_loweredOverlap t1 t2 2 a)
  have hpairs : (t2 a : ℤ) * t2 a - t2 a ≠ 0 := by
    have hsquare : (2 : ℤ) * t2 a ≤ t2 a * t2 a :=
      mul_le_mul_of_nonneg_right (by exact_mod_cast h) (Int.natCast_nonneg _)
    omega
  rw [Triad.on_ofExponents]
  exact neg_ne_zero.2 (div_ne_zero (Int.cast_ne_zero.2 hpairs) two_ne_zero)

/-- The terms that are left of the kinetic energy. -/
def keptKineticTerms : List Expr :=
  kineticBase (.ofExponents t1) (.ofExponents t2) ::
    (Axis.all.map (kineticRaised (.ofExponents t1) (.ofExponents t2)) ++
      (Axis.all.filter fun a => 2 ≤ t2 a).map (kineticLowered (.ofExponents t1) (.ofExponents t2)))

theorem length_keptKineticTerms :
    (keptKineticTerms t1 t2).length = 4 + (Axis.all.filter fun a => 2 ≤ t2 a).length := by
  rw [keptKineticTerms, List.length_cons, List.length_append, List.length_map, List.length_map,
    Axis.all, List.length_cons, List.length_cons, List.length_cons, List.length_nil]
  omega

theorem vanishes_keptKineticTerms : ∀ e ∈ keptKineticTerms t1 t2, e.vanishes = false := by
  simp only [keptKineticTerms, List.forall_mem_cons, List.forall_mem_append, List.forall_mem_map]
  refine ⟨vanishes_kineticBase t1 t2, fun a _ => vanishes_kineticRaised t1 t2 a, fun a ha => ?_⟩
  rw [vanishes_kineticLowered, (List.mem_filter.1 ha).2, Bool.not_true]

/-- Of the terms after the first, those stay that are in the list. -/
theorem filter_kineticTerms :
    (Axis.all.map (kineticRaised (.ofExponents t1) (.ofExponents t2)) ++
        Axis.all.map (kineticLowered (.ofExponents t1) (.ofExponents t2))).filter (!·.vanishes) =
      (keptKineticTerms t1 t2).tail := by
  have hraised : (Axis.all.map (kineticRaised (.ofExponents t1) (.ofExponents t2))).filter
      (!·.vanishes) = Axis.all.map (kineticRaised (.ofExponents t1) (.ofExponents t2)) :=
    List.filter_eq_self.2 (List.forall_mem_map.2 fun a _ => by rw [vanishes_kineticRaised]; rfl)
  rw [List.filter_append, hraised, List.filter_map, keptKineticTerms, List.tail_cons]
  congr 2
  refine List.filter_congr fun a _ => ?_
  rw [Function.comp_apply, vanishes_kineticLowered, Bool.not_not]

theorem all_vanishes_kineticTerms :
    (Axis.all.map (kineticRaised (.ofExponents t1) (.ofExponents t2)) ++
        Axis.all.map (kineticLowered (.ofExponents t1) (.ofExponents t2))).all vanishes =
      false := by
  rw [List.all_append, Axis.all, List.map_cons, List.all_cons, vanishes_kineticRaised,
    Bool.false_and, Bool.false_and]

theorem simplify_kineticEnergy (p : String) :
    simplify .kinetic (kineticEnergy (.ofExponents t1) (.ofExponents t2) p) =
      .product [simplify .kinetic (.symbol p),
        .sum ((keptKineticTerms t1 t2).map (simplify .kinetic))] := by
  rw [kineticEnergy, simplify_prefactor_sum _ _ _ (all_vanishes_kineticTerms t1 t2),
    simplify_sum_of_lasting _ _ (all_vanishes_kineticTerms t1 t2), filter_kineticTerms]
  rfl

theorem lasting_kineticSum :
    EveryPart Lasting (.sum (kineticBase (.ofExponents t1) (.ofExponents t2) ::
      (Axis.all.map (kineticRaised (.ofExponents t1) (.ofExponents t2)) ++
        Axis.all.map (kineticLowered (.ofExponents t1) (.ofExponents t2))))) := by
  refine lasting_sum (all_vanishes_kineticTerms t1 t2) ?_
  simp only [List.forall_mem_cons, List.forall_mem_append, List.forall_mem_map]
  refine ⟨lasting_product ?_, fun a _ => lasting_product ?_, fun a _ => lasting_product ?_⟩
  all_goals simp only [List.forall_mem_cons]
  · exact ⟨lasting_of_leaf rfl, lasting_of_leaf rfl, lasting_overlap t1 t2,
      List.forall_mem_nil _⟩
  · exact ⟨lasting_of_leaf rfl, lasting_of_leaf rfl, lasting_raisedOverlap t1 t2 2 a,
      List.forall_mem_nil _⟩
  · exact ⟨lasting_of_leaf rfl, lasting_loweredOverlap t1 t2 2 a, List.forall_mem_nil _⟩

end Kinetic

/-! ## Momentum -/

section Momentum

variable (t1 t2 : Axis → ℕ) (a : Axis)

/-- The term of the momentum with orbital 2 lowered. -/
def momentumLowered : Expr :=
  .product [.const ((Triad.ofExponents t2).on a),
    .group (loweredOverlap (.ofExponents t1) (.ofExponents t2) 1 a)]

/-- The term of the momentum with orbital 2 raised. -/
def momentumRaised : Expr :=
  .product [.const (-2), .symbol "a2",
    .group (overlap (.ofExponents t1) ((Triad.ofExponents t2).shift 1 a))]

theorem momentum_eq (p : String) :
    momentum (.ofExponents t1) (.ofExponents t2) a p =
      .product [.symbol p, .sum [momentumLowered t1 t2 a, momentumRaised t1 t2 a]] := rfl

theorem vanishes_momentumLowered :
    (momentumLowered t1 t2 a).vanishes = !decide (1 ≤ t2 a) := by
  refine vanishes_weighted t2 (fun h => ?_) (vanishes_loweredOverlap t1 t2 1 a)
  rw [Triad.on_ofExponents]
  exact Int.cast_ne_zero.2 (by omega)

theorem vanishes_momentumRaised : (momentumRaised t1 t2 a).vanishes = false := by
  refine vanishes_product_of_forall ?_
  simp only [List.forall_mem_cons]
  exact ⟨rfl, rfl, vanishes_raisedOverlap t1 t2 1 a, List.forall_mem_nil _⟩

theorem simplify_momentum (p : String) :
    simplify .momentum (momentum (.ofExponents t1) (.ofExponents t2) a p) =
      .product [simplify .momentum (.symbol p),
        .sum [simplify .momentum (momentumLowered t1 t2 a),
          simplify .momentum (momentumRaised t1 t2 a)]] := by
  have hraised : [momentumRaised t1 t2 a].all vanishes = false := by
    rw [List.all_cons, vanishes_momentumRaised, Bool.false_and]
  rw [momentum_eq, simplify_prefactor_sum _ _ _ hraised, simplify_sum_of_lasting _ _ hraised,
    List.filter_cons_of_pos (by rw [vanishes_momentumRaised]; rfl)]
  rfl

theorem lasting_momentumSum :
    EveryPart Lasting (.sum [momentumLowered t1 t2 a, momentumRaised t1 t2 a]) := by
  refine lasting_sum (by rw [List.all_cons, vanishes_momentumRaised, Bool.false_and]) ?_
  simp only [List.forall_mem_cons]
  refine ⟨lasting_product ?_, lasting_product ?_, List.forall_mem_nil _⟩
  all_goals simp only [List.forall_mem_cons]
  · exact ⟨lasting_of_leaf rfl,
      everyPart_group.2 ⟨trivial, lasting_loweredOverlap t1 t2 1 a⟩, List.forall_mem_nil _⟩
  · exact ⟨lasting_of_leaf rfl, lasting_of_leaf rfl,
      everyPart_group.2 ⟨trivial, lasting_raisedOverlap t1 t2 1 a⟩, List.forall_mem_nil _⟩

end Momentum

/-! ## Simplified formulas -/

/-- The simplified formula of a family, along an axis if it has components. -/
def simplifiedFormula (n : FamilyName) (t1 t2 : Axis → ℕ) (a : Axis) (prefactor : String) : Expr :=
  simplifyWith n.family.rules (familyFormula n (.ofExponents t1) (.ofExponents t2) a prefactor)

theorem lasting_formula (n : FamilyName) (t1 t2 : Axis → ℕ) (a : Axis) (prefactor : String) :
    EveryPart Lasting (familyFormula n (.ofExponents t1) (.ofExponents t2) a prefactor) := by
  have hproduct : ∀ {e : Expr}, EveryPart Lasting e →
      EveryPart Lasting (.product [.symbol prefactor, e]) := fun he =>
    lasting_product (List.forall_mem_cons.2
      ⟨lasting_of_leaf rfl, List.forall_mem_singleton.2 he⟩)
  cases n with
  | nuclear => exact hproduct (lasting_nuclearSum t1 t2)
  | kinetic => exact hproduct (lasting_kineticSum t1 t2)
  | momentum => exact hproduct (lasting_momentumSum t1 t2 a)

/-- **Simplified formulas keep exactly the terms that are not zero**, in their order.
The nuclear attraction keeps the terms that have not vanished, a single one as a bare factor. The
kinetic energy keeps the unshifted term, the three raised ones, and a lowered one for each axis on
which orbital 2 has an exponent of 2 or more. The momentum keeps both of its terms, the first as a
literal 0 when orbital 2 has no exponent on the axis. There are no factors 1, and a second run of
the same rules changes nothing. -/
theorem simplified_formulas_keep_terms (t1 t2 : Axis → ℕ) (a : Axis) (prefactor : String) :
    (simplifiedFormula .nuclear t1 t2 a prefactor = .product [simplify .nuclear (.symbol prefactor),
        ofTerms (((nuclearTerms (.ofExponents t1) (.ofExponents t2)).filter (!·.vanished)).map
          (simplify .nuclear ∘ Summand.toExpr))] ∧
      ∀ t ∈ nuclearTerms (.ofExponents t1) (.ofExponents t2),
        simplify .nuclear t.toExpr = .zero ↔ t.vanished = true) ∧
    (simplifiedFormula .kinetic t1 t2 a prefactor = .product [simplify .kinetic (.symbol prefactor),
        .sum ((keptKineticTerms t1 t2).map (simplify .kinetic))] ∧
      (keptKineticTerms t1 t2).length = 4 + (Axis.all.filter fun b => 2 ≤ t2 b).length ∧
      ∀ e ∈ keptKineticTerms t1 t2, simplify .kinetic e ≠ .zero) ∧
    (simplifiedFormula .momentum t1 t2 a prefactor =
        .product [simplify .momentum (.symbol prefactor),
          .sum [simplify .momentum (momentumLowered t1 t2 a),
            simplify .momentum (momentumRaised t1 t2 a)]] ∧
      (simplify .momentum (momentumLowered t1 t2 a) = .zero ↔ t2 a = 0) ∧
      simplify .momentum (momentumRaised t1 t2 a) ≠ .zero) ∧
    ∀ n : FamilyName,
      (∀ fs, .product fs ∈ (simplifiedFormula n t1 t2 a prefactor).walk → .const 1 ∉ fs) ∧
      simplifyWith n.family.rules (simplifiedFormula n t1 t2 a prefactor) =
        simplifiedFormula n t1 t2 a prefactor := by
  refine ⟨⟨simplify_nuclearAttraction t1 t2 prefactor, fun t ht => ?_⟩,
    ⟨simplify_kineticEnergy t1 t2 prefactor, length_keptKineticTerms t1 t2, fun e he => ?_⟩,
    ⟨simplify_momentum t1 t2 a prefactor, ?_, ?_⟩, fun n => ?_⟩
  · obtain ⟨ks, -, rfl⟩ := List.mem_map.1 ht
    rw [simplify_eq_zero_iff, vanishes_nuclearTerm]
  · rw [Ne, simplify_eq_zero_iff, vanishes_keptKineticTerms t1 t2 e he]
    exact Bool.false_ne_true
  · rw [simplify_eq_zero_iff, vanishes_momentumLowered, Bool.not_eq_true', decide_eq_false_iff_not]
    omega
  · rw [Ne, simplify_eq_zero_iff, vanishes_momentumRaised]
    exact Bool.false_ne_true
  · obtain ⟨map, hrules, -⟩ := exists_rules_eq n
    have hlasting := lasting_formula n t1 t2 a prefactor
    have hleaves := leaves_unitFactors_simplify map hlasting
    rw [simplifiedFormula, hrules]
    exact ⟨(tidy_simplify map _).leaves_unitFactors_iff.1 hleaves,
      simplify_simplify_of_lasting map hlasting⟩

/-- For the orbitals s and xx: the term of the nuclear attraction with one reduction is not zero, of
the kinetic energy five terms are left, and along y the momentum begins with a literal 0. -/
theorem simplified_formulas_keep_terms_s_xx :
    simplify .nuclear (nuclearTerm (.ofExponents 0) (.ofExponents (2 • Axis.x.unit))
        (Axis.all.map (singleReduction 0 .x))).toExpr ≠ .zero ∧
      (keptKineticTerms 0 (2 • Axis.x.unit)).length = 5 ∧
      simplify .momentum (momentumLowered 0 (2 • Axis.x.unit) .y) = .zero ∧
      .const 1 ∉ [simplify .kinetic (.symbol "coef"),
        .sum ((keptKineticTerms 0 (2 • Axis.x.unit)).map (simplify .kinetic))] := by
  obtain ⟨⟨-, hnuclear⟩, ⟨hkinetic, hlength, -⟩, ⟨-, hfirst, -⟩, hrest⟩ :=
    simplified_formulas_keep_terms 0 (2 • Axis.x.unit) .y "coef"
  have hdegree : (0 : Axis → ℕ) .x + (2 • Axis.x.unit) .x ≠ 0 := by decide
  refine ⟨?_, hlength, hfirst.2 (by decide), ?_⟩
  · rw [Ne, hnuclear _ (List.mem_map_of_mem (singleReduction_mem _ _ hdegree)),
      vanished_singleReduction _ _ hdegree]
    exact Bool.false_ne_true
  · refine (hrest .kinetic).1 _ ?_
    rw [hkinetic]
    exact List.mem_cons_self

end GaussianIntegrals
