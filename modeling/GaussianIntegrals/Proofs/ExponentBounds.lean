/-
  The exponents in the integral formulas, and why all of them have texts where the coefficients
  have.

  With exponents up to `m` in both orbitals no exponent of a formula is beyond `3 m + 2`
  (`exponentWithin_familyFormula`): that of `eps` counts pairs on three axes, and the kinetic energy
  raises an exponent by two. The other way round, each exponent `e` of an orbital shows in the
  coefficients, of which one is at least half of `C(e, 2)` (`countsPairs_familyFormula`). So where
  the coefficients have literals the orbitals' exponents have a digit less than may be written, and
  what comes out of them is written as well (`writable_exponents`).
-/
import GaussianIntegrals.Expansion.Operators
import GaussianIntegrals.Family.Values
import GaussianIntegrals.Number.Literal
import GaussianIntegrals.Proofs.IntegerTexts
import GaussianIntegrals.Proofs.NuclearRecurrence
import GaussianIntegrals.Proofs.Parts
import GaussianIntegrals.Proofs.QuotientRounding

namespace GaussianIntegrals

open Expr Number

/-- The formula of a family with a prefactor, along an axis if it has components. -/
def familyFormula (n : FamilyName) (t1 t2 : Triad) (a : Axis) (prefactor : String) : Expr :=
  match n with
  | .nuclear => nuclearAttraction t1 t2 prefactor
  | .kinetic => kineticEnergy t1 t2 prefactor
  | .momentum => momentum t1 t2 a prefactor

/-! ## Bounds -/

/-- The exponent, if the expression is a power, is not beyond the bound. -/
def Expr.ExponentWithin (bound : ℕ) : Expr → Prop
  | .power _ k => k.natAbs ≤ bound
  | _ => True

section Bounds

variable {bound : ℕ}

theorem leafProperty_exponentWithin : LeafProperty (ExponentWithin bound) :=
  ⟨fun _ => trivial, fun _ => trivial, fun _ => trivial⟩

theorem exponentWithin_toExpr {t : Summand} (h : ∀ q ∈ t.powers, q.2.natAbs ≤ bound) :
    EveryPart (ExponentWithin bound) t.toExpr :=
  leafProperty_exponentWithin.everyPart_toExpr (fun _ => trivial) h fun _ _ => trivial

theorem exponentWithin_const (v : ℚ) : EveryPart (ExponentWithin bound) (.const v) :=
  everyPart_const.2 trivial

theorem exponentWithin_symbol (n : String) : EveryPart (ExponentWithin bound) (.symbol n) :=
  everyPart_symbol.2 trivial

theorem exponentWithin_group {b : Expr} (h : EveryPart (ExponentWithin bound) b) :
    EveryPart (ExponentWithin bound) (.group b) :=
  everyPart_group.2 ⟨trivial, h⟩

theorem exponentWithin_product {fs : List Expr} (h : ∀ f ∈ fs, EveryPart (ExponentWithin bound) f) :
    EveryPart (ExponentWithin bound) (.product fs) :=
  everyPart_product.2 ⟨trivial, h⟩

variable {t1 t2 : Axis → ℕ}

theorem exponentWithin_nuclearTerm {m : ℕ} (h1 : ∀ b, t1 b ≤ m) (h2 : ∀ b, t2 b ≤ m)
    {ks : List AxisIndex} (hks : ks ∈ nuclearIndices (.ofExponents t1) (.ofExponents t2)) :
    EveryPart (ExponentWithin (3 * m + 2))
      (nuclearTerm (.ofExponents t1) (.ofExponents t2) ks).toExpr := by
  obtain ⟨hlength, hadm⟩ := mem_nuclearIndices hks
  by_cases hzero : ∃ k ∈ ks, k.binomials (.ofExponents t1) (.ofExponents t2) = 0
  · rw [nuclearTerm_of_vanished hzero]
    exact exponentWithin_toExpr (List.forall_mem_nil _)
  · have hne : ∀ k ∈ ks, k.binomials (.ofExponents t1) (.ofExponents t2) ≠ 0 :=
      fun k hk h0 => hzero ⟨k, hk, h0⟩
    rw [nuclearTerm_of_kept hne]
    refine exponentWithin_toExpr ?_
    simp only [List.forall_mem_append, List.forall_mem_singleton, List.mem_flatMap]
    constructor
    · rintro q ⟨k, hk, hq⟩
      have hshare := (hadm k hk).share_le
      have horder := (hadm k hk).order_le
      obtain ⟨hu1, hu2⟩ := le_of_binomials_ne_zero hshare (hne k hk)
      have hm1 := h1 k.axis
      have hm2 := h2 k.axis
      simp only [AxisIndex.powers, Triad.on_ofExponents, List.mem_cons, List.not_mem_nil,
        or_false] at hq
      rcases hq with rfl | rfl | rfl <;> dsimp only [Reduction.rest] <;> omega
    · have hpairs : (ks.map fun k => k.reduction.r + k.reduction.i).sum ≤
          (ks.map fun k => k.reduction.r + k.reduction.i).length • m := by
        refine List.sum_le_card_nsmul _ _ (List.forall_mem_map.2 fun k hk => ?_)
        have hle := (hadm k hk).pairs_le
        have horder := (hadm k hk).order_le
        have hm1 := h1 k.axis
        have hm2 := h2 k.axis
        omega
      rw [List.length_map, hlength, smul_eq_mul] at hpairs
      omega

/-- In an overlap the two exponents of an axis are shared out among the powers. -/
theorem exponentWithin_overlap (h : ∀ b, t1 b + t2 b ≤ bound) :
    EveryPart (ExponentWithin bound) (overlap (.ofExponents t1) (.ofExponents t2)) := by
  refine everyPart_product.2 ⟨trivial, List.forall_mem_map.2 fun b _ => ?_⟩
  refine leafProperty_exponentWithin.everyPart_ofTermList fun t ht => ?_
  simp only [Triad.on_ofExponents, overlapTerms, List.mem_flatMap, List.mem_map, List.mem_range,
    toNat_half_add_one] at ht
  obtain ⟨j, hj, s, hs, rfl⟩ := ht
  have hb := h b
  unfold overlapTerm
  dsimp only
  split
  · exact exponentWithin_toExpr (List.forall_mem_nil _)
  · next hne =>
    obtain ⟨hm, hn⟩ := Nat.mul_ne_zero_iff.1 hne
    clear hne
    have hs1 : (s : ℤ) ≤ t1 b := by
      by_contra hlt
      exact hm (binomial_of_lt (by omega))
    have hs2 : 2 * (j : ℤ) - s ≤ t2 b := by
      by_contra hlt
      exact hn (binomial_of_lt (by omega))
    have hterm : ((t1 b : ℤ) - s).natAbs ≤ bound ∧ ((t2 b : ℤ) - 2 * j + s).natAbs ≤ bound ∧
        (-(j : ℤ)).natAbs ≤ bound := by omega
    refine exponentWithin_toExpr ?_
    simpa using hterm

section Operators

variable {m : ℕ} (h1 : ∀ b, t1 b ≤ m) (h2 : ∀ b, t2 b ≤ m)

include h1 h2

theorem exponentWithin_raisedOverlap {step : ℕ} (hstep : step ≤ 2) (a : Axis) :
    EveryPart (ExponentWithin (3 * m + 2))
      (overlap (.ofExponents t1) ((Triad.ofExponents t2).shift step a)) := by
  rw [Triad.shift_ofExponents]
  refine exponentWithin_overlap fun b => ?_
  have hm1 := h1 b
  have hm2 := h2 b
  have hunit := a.unit_le_one b
  have hraise : step * a.unit b ≤ 2 * 1 := Nat.mul_le_mul hstep hunit
  rw [Pi.add_apply, Pi.smul_apply, smul_eq_mul]
  by_cases hzero : m = 0
  · omega
  · omega

theorem exponentWithin_loweredOverlap (step : ℕ) (a : Axis) :
    EveryPart (ExponentWithin (3 * m + 2))
      (loweredOverlap (.ofExponents t1) (.ofExponents t2) step a) := by
  unfold loweredOverlap
  split
  · next hle =>
    rw [Triad.on_ofExponents] at hle
    rw [Triad.shift_neg_ofExponents a (by omega)]
    refine exponentWithin_overlap fun b => ?_
    have hm1 := h1 b
    have hm2 := h2 b
    rw [Pi.sub_apply]
    omega
  · exact exponentWithin_const 0

/-- With exponents up to `m` no exponent of a formula is beyond `3 m + 2`. -/
theorem exponentWithin_familyFormula (n : FamilyName) (a : Axis) (prefactor : String) :
    EveryPart (ExponentWithin (3 * m + 2))
      (familyFormula n (.ofExponents t1) (.ofExponents t2) a prefactor) := by
  have hraised := fun step (hstep : step ≤ 2) b => exponentWithin_raisedOverlap h1 h2 hstep b
  have hlowered := exponentWithin_loweredOverlap h1 h2
  have hbase : EveryPart (ExponentWithin (3 * m + 2))
      (overlap (.ofExponents t1) (.ofExponents t2)) := exponentWithin_overlap fun b => by
    have hm1 := h1 b
    have hm2 := h2 b
    omega
  have ha2 : EveryPart (ExponentWithin (3 * m + 2)) (.power "a2" 2) :=
    everyPart_power.2 (Nat.le_add_left 2 (3 * m))
  cases n with
  | nuclear =>
    refine exponentWithin_product (List.forall_mem_cons.2 ⟨exponentWithin_symbol _,
      List.forall_mem_singleton.2 (leafProperty_exponentWithin.everyPart_ofTermList ?_)⟩)
    exact List.forall_mem_map.2 fun ks hks => exponentWithin_nuclearTerm h1 h2 hks
  | kinetic =>
    refine exponentWithin_product (List.forall_mem_cons.2 ⟨exponentWithin_symbol _,
      List.forall_mem_singleton.2 (everyPart_sum.2 ⟨trivial, ?_⟩)⟩)
    simp only [List.forall_mem_cons, List.forall_mem_append, List.forall_mem_map]
    refine ⟨exponentWithin_product ?_, fun b _ => exponentWithin_product ?_,
      fun b _ => exponentWithin_product ?_⟩
    · simpa using ⟨exponentWithin_const _, exponentWithin_symbol _, hbase⟩
    · simpa using ⟨exponentWithin_const _, ha2, hraised 2 (le_refl 2) b⟩
    · simpa using ⟨exponentWithin_const _, hlowered 2 b⟩
  | momentum =>
    refine exponentWithin_product (List.forall_mem_cons.2 ⟨exponentWithin_symbol _,
      List.forall_mem_singleton.2 (everyPart_sum.2 ⟨trivial, List.forall_mem_cons.2
        ⟨exponentWithin_product ?_, List.forall_mem_singleton.2 (exponentWithin_product ?_)⟩⟩)⟩)
    · simpa using ⟨exponentWithin_const _, exponentWithin_group (hlowered 1 a)⟩
    · simpa using ⟨exponentWithin_const _, exponentWithin_symbol _,
        exponentWithin_group (hraised 1 (by decide) a)⟩

end Operators

end Bounds

/-! ## Coefficients -/

/-- A coefficient of the expression is at least half the number of pairs out of `e`. -/
def Expr.CountsPairs (f : Expr) (e : ℕ) : Prop :=
  2 ≤ e → ∃ v, .const v ∈ f.walk ∧ (e.choose 2 : ℚ) ≤ 2 * v

theorem Expr.CountsPairs.of_mem_parts {f c : Expr} {e : ℕ} (h : c.CountsPairs e)
    (hc : c ∈ f.parts) : f.CountsPairs e := fun he =>
  (h he).imp fun _ hv => ⟨mem_walk_of_mem_parts hc hv.1, hv.2⟩

theorem Expr.CountsPairs.mono {f : Expr} {e e' : ℕ} (h : f.CountsPairs e') (he : e ≤ e') :
    f.CountsPairs e := by
  intro htwo
  obtain ⟨v, hv, hle⟩ := h (htwo.trans he)
  exact ⟨v, hv, (Nat.cast_le.2 (Nat.choose_le_choose 2 he)).trans hle⟩

/-- It is enough that orbital 1 may take both of two units, or leave them to orbital 2. -/
theorem countsPairs_of_shares {f : Expr} {e1 e2 : ℕ} {q : ℚ} (hq : 1 ≤ 2 * q)
    (h : ∀ s ≤ 2, s ≤ e1 → 2 - s ≤ e2 →
      .const ((e1.choose s * e2.choose (2 - s) : ℕ) * q) ∈ f.walk) :
    f.CountsPairs e1 ∧ f.CountsPairs e2 := by
  have hle : ∀ n : ℕ, (n : ℚ) ≤ 2 * (n * q) := fun n => by
    calc (n : ℚ) = n * 1 := (mul_one _).symm
      _ ≤ n * (2 * q) := mul_le_mul_of_nonneg_left hq (Nat.cast_nonneg n)
      _ = 2 * (n * q) := mul_left_comm _ _ _
  constructor
  · intro he
    have hmem := h 2 (le_refl 2) he (Nat.zero_le _)
    rw [Nat.sub_self, Nat.choose_zero_right, mul_one] at hmem
    exact ⟨_, hmem, hle _⟩
  · intro he
    have hmem := h 0 (Nat.zero_le _) (Nat.zero_le _) he
    rw [Nat.choose_zero_right, one_mul] at hmem
    exact ⟨_, hmem, hle _⟩

theorem mem_walk_toExpr {t : Summand} (h : t.vanished = false) :
    .const t.coefficient ∈ t.toExpr.walk := by
  unfold Summand.toExpr
  rw [h, Bool.false_or]
  split
  · next hc =>
    rw [beq_iff_eq.1 hc]
    exact List.mem_singleton.2 rfl
  · exact mem_walk_of_mem_parts List.mem_cons_self (List.mem_singleton.2 rfl)

theorem mem_walk_ofTermList {ts : List Summand} {t : Summand} (ht : t ∈ ts)
    (h : t.vanished = false) : .const t.coefficient ∈ (ofTermList ts).walk :=
  mem_walk_of_mem_parts (List.mem_map_of_mem ht) (mem_walk_toExpr h)

/-- The reductions with the order 2 on one axis and none on the others. -/
def Reduction.lone (b c : Axis) : Reduction := if c = b then ⟨2, 0, 0⟩ else ⟨0, 0, 0⟩

/-- Their shares, all of them on that axis. -/
def loneShare (b : Axis) (s : ℕ) (c : Axis) : ℕ := if c = b then s else 0

section Coefficients

variable (t1 t2 : Axis → ℕ)

theorem admissible_lone {b : Axis} {s : ℕ} (hs : s ≤ 2) (h1 : s ≤ t1 b) (h2 : 2 - s ≤ t2 b)
    (c : Axis) :
    AxisIndex.Admissible t1 t2 ⟨c, Reduction.lone b c, loneShare b s c⟩ ∧
      AxisIndex.binomials (.ofExponents t1) (.ofExponents t2)
        ⟨c, Reduction.lone b c, loneShare b s c⟩ ≠ 0 := by
  by_cases hc : c = b
  · rw [Reduction.lone, loneShare, if_pos hc, if_pos hc, hc]
    exact ⟨⟨by dsimp only; omega, Nat.zero_le 2, hs⟩, binomials_ne_zero_of_le hs h1 h2⟩
  · rw [Reduction.lone, loneShare, if_neg hc, if_neg hc]
    exact ⟨⟨Nat.zero_le _, le_refl 0, le_refl 0⟩,
      binomials_ne_zero_of_le (le_refl 0) (Nat.zero_le _) (Nat.zero_le _)⟩

/-- The coefficient of the term at these indices. -/
theorem coefficient_lone {b : Axis} {s : ℕ} (hs : s ≤ 2) :
    (-1) ^ ((tripleOf (Reduction.lone b) (loneShare b s)).map
        fun k => k.reduction.l + k.reduction.i).sum *
      ((tripleOf (Reduction.lone b) (loneShare b s)).map fun k =>
        (k.binomials (.ofExponents t1) (.ofExponents t2) : ℚ) * k.reduction.weight).prod =
      ((t1 b).choose s * (t2 b).choose (2 - s) : ℕ) := by
  have hweight : Reduction.weight ⟨2, 0, 0⟩ = 1 ∧ Reduction.weight ⟨0, 0, 0⟩ = 1 := by
    decide +kernel
  have hsign : (Axis.total fun c => (Reduction.lone b c).l + (Reduction.lone b c).i) = 2 := by
    cases b <;> rfl
  rw [sum_map_tripleOf, hsign, even_two.neg_one_pow, one_mul, tripleOf, List.map_map,
    prod_axes_of_ne b fun c hc => ?_]
  · rw [Function.comp_apply, Reduction.lone, loneShare, if_pos rfl, if_pos rfl,
      binomials_ofExponents hs, hweight.1, mul_one]
  · rw [Function.comp_apply, Reduction.lone, loneShare, if_neg hc, if_neg hc,
      binomials_ofExponents (le_refl 0), hweight.2]
    simp

theorem countsPairs_nuclearSum (b : Axis) :
    (ofTermList (nuclearTerms (.ofExponents t1) (.ofExponents t2))).CountsPairs (t1 b) ∧
      (ofTermList (nuclearTerms (.ofExponents t1) (.ofExponents t2))).CountsPairs (t2 b) := by
  refine countsPairs_of_shares (q := 1) (by norm_num) fun s hs h1 h2 => ?_
  have hlone := admissible_lone t1 t2 hs h1 h2
  have hterm : nuclearTerm (.ofExponents t1) (.ofExponents t2)
      (tripleOf (Reduction.lone b) (loneShare b s)) ∈
        nuclearTerms (.ofExponents t1) (.ofExponents t2) :=
    List.mem_map_of_mem (tripleOf_mem_nuclearIndices_iff.2 fun c => (hlone c).1)
  rw [nuclearTerm_of_kept (forall_mem_tripleOf.2 fun c => (hlone c).2),
    coefficient_lone t1 t2 hs] at hterm
  rw [mul_one]
  exact mem_walk_ofTermList hterm rfl

/-- The coefficients of the terms with one pair. -/
theorem countsPairs_overlap (b : Axis) :
    (overlap (.ofExponents t1) (.ofExponents t2)).CountsPairs (t1 b) ∧
      (overlap (.ofExponents t1) (.ofExponents t2)).CountsPairs (t2 b) := by
  refine countsPairs_of_shares (q := 1 / 2) (by norm_num) fun s hs h1 h2 => ?_
  have hbinomials : binomial (t1 b) s * binomial (t2 b) (2 * (1 : ℕ) - s) =
      (t1 b).choose s * (t2 b).choose (2 - s) := by
    rw [binomial_natCast, binomial_two_mul_sub (by omega)]
  have hterm : overlapTerm (t1 b) (t2 b) b.number 1 s ∈ overlapTerms (t1 b) (t2 b) b.number := by
    simp only [overlapTerms, List.mem_flatMap, List.mem_map, List.mem_range, toNat_half_add_one]
    exact ⟨1, by omega, s, by omega, rfl⟩
  unfold overlapTerm at hterm
  rw [hbinomials, if_neg (Nat.mul_ne_zero (Nat.choose_pos h1).ne' (Nat.choose_pos h2).ne'),
    doubleFactorial_odd] at hterm
  have hmem := mem_walk_ofTermList hterm rfl
  rw [show oddProduct 1 = 1 from rfl, mul_one, div_eq_mul_one_div] at hmem
  refine mem_walk_of_mem_parts (List.mem_map_of_mem b.mem_all) ?_
  rwa [Triad.on_ofExponents, Triad.on_ofExponents]

/-- Each formula has coefficients that count the pairs out of the exponents of the orbitals. -/
theorem countsPairs_familyFormula (n : FamilyName) (a : Axis) (prefactor : String) (b : Axis) :
    (familyFormula n (.ofExponents t1) (.ofExponents t2) a prefactor).CountsPairs (t1 b) ∧
      (familyFormula n (.ofExponents t1) (.ofExponents t2) a prefactor).CountsPairs (t2 b) := by
  have hsecond : ∀ {p e : Expr}, e ∈ (Expr.product [p, e]).parts := fun {_ _} =>
    List.mem_cons_of_mem _ List.mem_cons_self
  have hthird : ∀ {c p e : Expr}, e ∈ (Expr.product [c, p, e]).parts := fun {_ _ _} =>
    List.mem_cons_of_mem _ hsecond
  cases n with
  | nuclear =>
    have hpath : ∀ {e},
        (ofTermList (nuclearTerms (.ofExponents t1) (.ofExponents t2))).CountsPairs e →
        (familyFormula .nuclear (.ofExponents t1) (.ofExponents t2) a prefactor).CountsPairs e :=
      fun h => h.of_mem_parts hsecond
    exact (countsPairs_nuclearSum t1 t2 b).imp hpath hpath
  | kinetic =>
    have hpath : ∀ {e}, (overlap (.ofExponents t1) (.ofExponents t2)).CountsPairs e →
        (familyFormula .kinetic (.ofExponents t1) (.ofExponents t2) a prefactor).CountsPairs e := by
      intro e h
      have hbase : (kineticBase (.ofExponents t1) (.ofExponents t2)).CountsPairs e :=
        h.of_mem_parts hthird
      exact (hbase.of_mem_parts (f := .sum _) List.mem_cons_self).of_mem_parts hsecond
    exact (countsPairs_overlap t1 t2 b).imp hpath hpath
  | momentum =>
    have hpath : ∀ {e},
        (overlap (.ofExponents t1) (.ofExponents (t2 + 1 • a.unit))).CountsPairs e →
        (familyFormula .momentum (.ofExponents t1) (.ofExponents t2) a prefactor).CountsPairs e := by
      intro e h
      rw [← Triad.shift_ofExponents] at h
      have hgroup := h.of_mem_parts (f := .group _) List.mem_cons_self
      have hraised := hgroup.of_mem_parts (f := .product [.const (-2), .symbol "a2", _]) hthird
      exact (hraised.of_mem_parts (f := .sum _) hsecond).of_mem_parts hsecond
    obtain ⟨h1, h2⟩ := countsPairs_overlap t1 (t2 + 1 • a.unit) b
    exact ⟨hpath h1, hpath (h2.mono (Nat.le_add_right _ _))⟩

end Coefficients

/-! ## Texts -/

/-- A number with a literal is below the least integer that is too long: binary numbers do not go
so far. -/
theorem abs_lt_of_literal {v : ℚ} {s : String} (h : literal v = .ok s) :
    |v| < 10 ^ Text.digitLimit := by
  unfold literal at h
  split at h
  · next hden =>
    rw [mapError_eq_ok, (Text.writes_writeInt v.num).eq_ok_iff] at h
    rw [← Rat.coe_int_num_of_den_eq_one hden, ← Int.cast_abs, Int.abs_eq_natAbs]
    exact_mod_cast h.1.natAbs_lt
  · split at h
    · cases h
    · next b hb =>
      have hsome : ¬ (2 ^ 53 - 1 / 2) * 2 ^ greatestExponent ≤ (v.num.natAbs : ℚ) / v.den := by
        rw [← Binary.nearest?_eq_none_iff v.den_pos, hb]
        exact Option.some_ne_none b
      calc |v| < (2 ^ 53 - 1 / 2) * 2 ^ greatestExponent := by
            rw [abs_eq_natAbs_div]
            exact not_le.1 hsome
        _ ≤ 2 ^ 53 * 2 ^ greatestExponent :=
            mul_le_mul_of_nonneg_right (by norm_num) (Binary.two_zpow_pos _).le
        _ = 2 ^ ((1024 : ℕ) : ℤ) := pow_mul_zpow (by decide) 53 greatestExponent
        _ = 2 ^ 1024 := zpow_natCast 2 1024
        _ ≤ 10 ^ 1024 := pow_le_pow_left₀ (by norm_num) (by norm_num) 1024
        _ ≤ 10 ^ Text.digitLimit := pow_le_pow_right₀ (by norm_num) (by decide)

theorem twenty_mul_le_choose_two {e : ℕ} (h : 41 ≤ e) : 20 * e ≤ e.choose 2 := by
  obtain ⟨d, rfl⟩ : ∃ d, e = d + 1 := ⟨e - 1, by omega⟩
  rw [Nat.choose_two_right, Nat.le_div_iff_mul_le (by decide), Nat.add_sub_cancel]
  nlinarith

/-- What is counted in pairs is far below the literals' limit. -/
theorem Expr.CountsPairs.ten_mul_lt {f : Expr} {e : ℕ} (h : f.CountsPairs e)
    (hf : ∀ v, .const v ∈ f.walk → ∃ s, literal v = .ok s) : 10 * e < 10 ^ Text.digitLimit := by
  rcases Nat.lt_or_ge e 41 with hsmall | hlarge
  · have hlimit : 10 ^ 3 ≤ 10 ^ Text.digitLimit := Nat.pow_le_pow_right (by decide) (by decide)
    omega
  · obtain ⟨v, hv, hpairs⟩ := h (by omega)
    obtain ⟨s, hs⟩ := hf v hv
    have hlt := (le_abs_self v).trans_lt (abs_lt_of_literal hs)
    have hchoose : ((20 * e : ℕ) : ℚ) ≤ e.choose 2 :=
      Nat.cast_le.2 (twenty_mul_le_choose_two hlarge)
    have hcast : ((10 * e : ℕ) : ℚ) < ((10 ^ Text.digitLimit : ℕ) : ℚ) := by
      push_cast at hchoose ⊢
      linarith
    exact Nat.cast_lt.1 hcast

/-- **Where all coefficients of a formula have literals, all exponents have texts.** -/
theorem writable_exponents (n : FamilyName) (t1 t2 : Axis → ℕ) (a : Axis) (prefactor : String)
    (h : ∀ v, .const v ∈ (familyFormula n (.ofExponents t1) (.ofExponents t2) a prefactor).walk →
      ∃ s, literal v = .ok s) {base : String} {k : ℤ}
    (hk : .power base k ∈
      (familyFormula n (.ofExponents t1) (.ofExponents t2) a prefactor).walk) :
    Text.Writable k := by
  obtain ⟨m, hm⟩ : ∃ m, 10 ^ Text.digitLimit = 10 * m :=
    ⟨_, (mul_pow_sub_one (by decide) 10).symm⟩
  have hle : ∀ b, t1 b ≤ m ∧ t2 b ≤ m := by
    intro b
    obtain ⟨h1, h2⟩ := countsPairs_familyFormula t1 t2 n a prefactor b
    have hlt1 := h1.ten_mul_lt h
    have hlt2 := h2.ten_mul_lt h
    omega
  have hwithin := exponentWithin_familyFormula (fun b => (hle b).1) (fun b => (hle b).2) n a
    prefactor _ hk
  have hpos : 0 < 10 ^ Text.digitLimit := Nat.pow_pos (by decide)
  rw [ExponentWithin] at hwithin
  refine ⟨?_⟩
  omega

end GaussianIntegrals
