/-
  The parts of the expressions of the three families over the twenty orbitals: every constant
  has an exact literal, every name belongs to a symbol and not to the raw or the basis matrix,
  and only `Y` has negative exponents. The rules of the families keep all of it.

  The coefficients of the nuclear attraction sum are integers of a moderate size; those of the
  overlaps are a few fractions with a power of two below, each with a short literal.
-/
import GaussianIntegrals.Family.Basic
import GaussianIntegrals.Proofs.Code.Program
import GaussianIntegrals.Proofs.ExponentBounds
import Mathlib.Algebra.Order.Field.Basic
import Mathlib.Data.Nat.Choose.Bounds
import Mathlib.Tactic.IntervalCases

namespace GaussianIntegrals

open Expr Code Number

/-- The name is the text of a variable or an entry outside the raw and the basis matrix. -/
def IsSymbol (n : String) : Prop :=
  ∃ r : Reference, r.WellFormed ∧ r.name ≠ ['w', 'o'] ∧ r.name ≠ ['g'] ∧ r.text = n

/-- The expression, its parts apart, can be emitted: constants and names can be read back, and
only `Y` is ever inverted. -/
def Emittable : Expr → Prop
  | .const v => ExactLiteral v
  | .symbol n => IsSymbol n
  | .power b k => IsSymbol b ∧ (k < 0 → b = "Y")
  | .alias n _ => IsSymbol n
  | _ => True

/-! ## Symbols -/

/-- A name of letters, digits and the like that is neither of the two matrices. -/
def isPlainName (w : List Char) : Bool :=
  isName w && w.all isWordChar && w != ['w', 'o'] && w != ['g']

theorem isSymbol_of_indices {w : List Char} (h : isPlainName w = true) {is : List Index}
    (his : ∀ i ∈ is, IsWord i.word) : IsSymbol (Reference.text ⟨w, is⟩) := by
  simp only [isPlainName, Bool.and_eq_true, bne_iff_ne, ne_eq, List.all_eq_true] at h
  refine ⟨⟨w, is⟩, ⟨h.1.1.1, ⟨?_, h.1.1.2⟩, his⟩, h.1.2, h.2, rfl⟩
  rintro rfl
  exact absurd h.1.1.1 (by decide)

theorem isSymbol_word {w : List Char} (h : isPlainName w = true) : IsSymbol (String.ofList w) := by
  have hnone : ∀ i ∈ ([] : List Index), IsWord i.word := by simp
  exact isSymbol_of_indices h hnone

theorem centreSymbol_eq_text (w : List Char) (number : ℤ) :
    centreSymbol (String.ofList w) number = Reference.text ⟨w, [.ofInt number]⟩ := by
  rw [← String.toList_inj, Reference.text, String.toList_ofList]
  simp [centreSymbol, Reference.chars, indexChars, Index.chars_ofInt]

theorem isSymbol_centreSymbol {w : List Char} (h : isPlainName w = true) (number : ℤ) :
    IsSymbol (centreSymbol (String.ofList w) number) := by
  rw [centreSymbol_eq_text]
  exact isSymbol_of_indices h (by simpa using Index.isWord_ofInt number)

/-- The name of a Boys function. -/
theorem boysName_eq (n : ℕ) : s!"F{n}" = String.ofList ('F' :: Nat.toDigits 10 n) := by
  rw [← String.toList_inj, String.toList_ofList]
  simp [Nat.toString_eq_repr, Nat.toList_repr]

theorem isPlainName_boys (n : ℕ) : isPlainName ('F' :: Nat.toDigits 10 n) = true := by
  have hall : (Nat.toDigits 10 n).all isWordChar = true := by
    rw [List.all_eq_true]
    intro c hc
    exact isWordChar_of_isDigit (Nat.isDigit_of_mem_toDigits (by decide) (by decide) hc)
  have hF : isName ('F' :: Nat.toDigits 10 n) = true ∧ isWordChar 'F' = true := ⟨rfl, rfl⟩
  simp [isPlainName, hF.1, hF.2, hall]

theorem isSymbol_boys (n : ℕ) : IsSymbol s!"F{n}" := by
  rw [boysName_eq]
  exact isSymbol_word (isPlainName_boys n)

/-! ## Terms -/

theorem everyPart_zero : EveryPart Emittable .zero :=
  everyPart_const.2 (exactLiteral_of_natAbs_le (v := 0) (by decide))

theorem leafProperty_emittable : LeafProperty Emittable :=
  ⟨fun _ => trivial, fun _ => trivial, fun _ => trivial⟩

/-- A term is emittable when its coefficient, powers and symbols are. -/
theorem everyPart_toExpr {t : Summand} (hc : ExactLiteral t.coefficient)
    (hp : ∀ p ∈ t.powers, Emittable (.power p.1 p.2)) (hs : ∀ s ∈ t.symbols, IsSymbol s) :
    EveryPart Emittable t.toExpr := by
  unfold Summand.toExpr
  split
  · exact everyPart_zero
  · refine everyPart_product.2 ⟨trivial, ?_⟩
    simp only [List.forall_mem_cons, List.forall_mem_append, List.forall_mem_map]
    exact ⟨everyPart_const.2 hc, fun p hp' => everyPart_power.2 (hp p hp'),
      fun s hs' => everyPart_symbol.2 (hs s hs')⟩

/-- An integer constant times further factors. -/
theorem everyPart_weighted {k : ℤ} (hk : k.natAbs ≤ 10 ^ 18) {fs : List Expr}
    (hfs : ∀ f ∈ fs, EveryPart Emittable f) :
    EveryPart Emittable (.product (.const k :: fs)) := by
  refine everyPart_product.2 ⟨trivial, ?_⟩
  rw [List.forall_mem_cons]
  exact ⟨everyPart_const.2 (exactLiteral_of_natAbs_le hk), hfs⟩

/-! ## Nuclear attraction -/

section Nuclear

variable {t1 t2 : Axis → ℕ}

/-- The factorial quotient of a reduction is a natural number. -/
theorem exists_weight_eq {k : Reduction} (h : 2 * (k.r + k.i) ≤ k.l) :
    ∃ n : ℕ, n ≤ k.l.factorial ∧ k.weight = n := by
  obtain ⟨l, r, i⟩ := k
  refine ⟨l.choose (2 * (r + i)) * oddProduct (r + i) * 2 ^ (r + i) * (r + i).choose r, ?_, ?_⟩
  · have hw := weight_of_add l r i h
    have hle : Reduction.weight ⟨l, r, i⟩ ≤ l.factorial := by
      rw [Reduction.weight, factorial_eq]
      refine div_le_self (Nat.cast_nonneg _) ?_
      exact Nat.one_le_cast.2
        (Nat.mul_pos (Nat.mul_pos (factorial_pos _) (factorial_pos _)) (factorial_pos _))
    rw [hw] at hle
    exact_mod_cast hle
  · rw [weight_of_add l r i h]
    push_cast
    ring

/-- What an axis contributes to a coefficient is a natural number of a moderate size. -/
theorem exists_axisFactor_eq {k : AxisIndex} (hk : k.Admissible t1 t2) (h1 : t1 k.axis ≤ 3)
    (h2 : t2 k.axis ≤ 3) :
    ∃ n : ℕ, n ≤ 10 ^ 6 ∧
      (k.binomials (.ofExponents t1) (.ofExponents t2) : ℚ) * k.reduction.weight = n := by
  obtain ⟨w, hw, heq⟩ := exists_weight_eq hk.pairs_le
  refine ⟨k.binomials (.ofExponents t1) (.ofExponents t2) * w, ?_, ?_⟩
  · have hchoose : ∀ n m : ℕ, n ≤ 3 → n.choose m ≤ 8 := fun n m hn =>
      (Nat.choose_le_two_pow n m).trans (Nat.pow_le_pow_right (by decide) hn)
    have hb : k.binomials (.ofExponents t1) (.ofExponents t2) ≤ 8 * 8 := by
      rw [binomials_ofExponents hk.share_le]
      exact Nat.mul_le_mul (hchoose _ _ h1) (hchoose _ _ h2)
    have hl : k.reduction.l ≤ 6 := by
      have := hk.order_le
      omega
    have hw720 : w ≤ 720 := hw.trans (Nat.factorial_le hl)
    exact (Nat.mul_le_mul hb hw720).trans (by decide)
  · rw [heq, Nat.cast_mul]

/-- The product over the axes. -/
theorem exists_magnitude_eq {ks : List AxisIndex} {f : AxisIndex → ℚ}
    (h : ∀ k ∈ ks, ∃ n : ℕ, n ≤ 10 ^ 6 ∧ f k = n) :
    ∃ n : ℕ, n ≤ (10 ^ 6) ^ ks.length ∧ ks.foldl (fun c k => c * f k) 1 = n := by
  rw [foldl_mul_eq_prod]
  induction ks with
  | nil => exact ⟨1, le_refl 1, by simp⟩
  | cons k ks ih =>
    rw [List.forall_mem_cons] at h
    obtain ⟨n, hn, hfn⟩ := h.1
    obtain ⟨m, hm, hfm⟩ := ih h.2
    refine ⟨n * m, ?_, ?_⟩
    · rw [List.length_cons, pow_succ, mul_comm]
      exact Nat.mul_le_mul hm hn
    · rw [List.map_cons, List.prod_cons, hfn, hfm, Nat.cast_mul]

theorem emittable_powers {k : AxisIndex} (hk : k.Admissible t1 t2)
    (hb : k.binomials (.ofExponents t1) (.ofExponents t2) ≠ 0) :
    ∀ p ∈ k.powers (.ofExponents t1) (.ofExponents t2), Emittable (.power p.1 p.2) := by
  obtain ⟨h1, h2⟩ := le_of_binomials_ne_zero hk.share_le hb
  have hshare := hk.share_le
  simp only [AxisIndex.powers, Triad.on_ofExponents, List.forall_mem_cons]
  refine ⟨⟨?_, fun h => ?_⟩, ⟨?_, fun h => ?_⟩, ⟨?_, fun h => ?_⟩, by simp⟩
  · exact isSymbol_centreSymbol (w := ['P', 'A']) (by decide) _
  · omega
  · exact isSymbol_centreSymbol (w := ['P', 'B']) (by decide) _
  · omega
  · exact isSymbol_centreSymbol (w := ['P', 'C']) (by decide) _
  · omega

theorem everyPart_nuclearTerm (h1 : ∀ a, t1 a ≤ 3) (h2 : ∀ a, t2 a ≤ 3) {ks : List AxisIndex}
    (hks : ks ∈ nuclearIndices (.ofExponents t1) (.ofExponents t2)) :
    EveryPart Emittable (nuclearTerm (.ofExponents t1) (.ofExponents t2) ks).toExpr := by
  obtain ⟨hlength, hadm⟩ := mem_nuclearIndices hks
  unfold nuclearTerm
  split
  · exact everyPart_zero
  · next hz =>
    have hne := binomials_ne_zero hz
    obtain ⟨n, hn, hmag⟩ := exists_magnitude_eq fun k hk =>
      exists_axisFactor_eq (hadm k hk) (h1 k.axis) (h2 k.axis)
    rw [hlength] at hn
    refine everyPart_toExpr ?_ ?_ ?_
    · dsimp only
      rw [hmag]
      split
      · have h := exactLiteral_of_natAbs_le (v := -(n : ℤ)) (by omega)
        rwa [Int.cast_neg, Int.cast_natCast] at h
      · have h := exactLiteral_of_natAbs_le (v := (n : ℤ)) (by omega)
        rwa [Int.cast_natCast] at h
    · simp only [List.forall_mem_append, List.forall_mem_singleton, List.mem_flatMap]
      refine ⟨fun p ⟨k, hk, hp⟩ => emittable_powers (hadm k hk) (hne k hk) p hp, ?_, fun h => ?_⟩
      · exact isSymbol_word (w := ['e', 'p', 's']) (by decide)
      · omega
    · simp only [List.forall_mem_singleton]
      exact isSymbol_boys _

theorem everyPart_nuclearAttraction (h1 : ∀ a, t1 a ≤ 3) (h2 : ∀ a, t2 a ≤ 3) :
    EveryPart Emittable (nuclearAttraction (.ofExponents t1) (.ofExponents t2) "preFactor") := by
  refine everyPart_product.2 ⟨trivial, ?_⟩
  simp only [List.forall_mem_cons]
  refine ⟨everyPart_symbol.2 ?_, leafProperty_emittable.everyPart_ofTermList ?_, by simp⟩
  · exact isSymbol_word (w := ['p', 'r', 'e', 'F', 'a', 'c', 't', 'o', 'r']) (by decide)
  · intro t ht
    obtain ⟨ks, hks, rfl⟩ := List.mem_map.1 ht
    exact everyPart_nuclearTerm h1 h2 hks

end Nuclear

/-! ## Overlaps -/

/-- The coefficients in the overlaps of orbitals up to exponents 3 and 5. -/
def overlapCoefficients : List ℚ :=
  [0, 1, 2, 3, 4, 5, 6, 9, 15, 1 / 2, 3 / 2, 5 / 2, 9 / 2, 15 / 2, 27 / 2, 45 / 2, 3 / 4, 9 / 4,
    15 / 4, 27 / 4, 75 / 4, 15 / 8, 45 / 8, 75 / 8, 225 / 8, 105 / 16]

theorem mem_overlapCoefficients : ∀ e1 < (4 : ℕ), ∀ e2 < (6 : ℕ), ∀ j < (5 : ℕ), ∀ s < (9 : ℕ),
    ((binomial e1 s * binomial e2 (2 * (j : ℤ) - s) * oddProduct j : ℕ) : ℚ) / (Nat.pow 2 j : ℕ) ∈
      overlapCoefficients := by
  decide +kernel

theorem exactLiteral_overlapCoefficients : ∀ v ∈ overlapCoefficients, ExactLiteral v := by
  have hcheck : ∀ v ∈ overlapCoefficients, v.den = 1 ∧ v.num.natAbs ≤ 10 ^ 18 ∨
      v.den ≠ 1 ∧ (fractionChars? v).bind decimal? = some v := by
    decide +kernel
  intro v hv
  rcases hcheck v hv with ⟨hden, hnum⟩ | ⟨hden, hchars⟩
  · rw [← Rat.coe_int_num_of_den_eq_one hden]
    exact exactLiteral_of_natAbs_le hnum
  · exact exactLiteral_fraction hden hchars

theorem everyPart_overlapSum {e1 e2 : ℤ} (h1 : 0 ≤ e1 ∧ e1 ≤ 3) (h2 : 0 ≤ e2 ∧ e2 ≤ 5)
    (number : ℤ) : EveryPart Emittable (overlapSum e1 e2 number) := by
  obtain ⟨m, rfl⟩ := Int.eq_ofNat_of_zero_le h1.1
  obtain ⟨n, rfl⟩ := Int.eq_ofNat_of_zero_le h2.1
  refine leafProperty_emittable.everyPart_ofTermList fun t ht => ?_
  simp only [overlapTerms, List.mem_flatMap, List.mem_map, List.mem_range] at ht
  obtain ⟨j, hj, s, hs, rfl⟩ := ht
  rw [Int.fdiv_eq_ediv_of_nonneg _ (by decide)] at hj
  unfold overlapTerm
  dsimp only
  split
  · exact everyPart_zero
  · next hne =>
    obtain ⟨hm, hn⟩ := Nat.mul_ne_zero_iff.1 hne
    have hsm : (s : ℤ) ≤ m := by
      by_contra hlt
      exact hm (binomial_of_lt (by omega))
    have hsn : 2 * (j : ℤ) - s ≤ n := by
      by_contra hlt
      exact hn (binomial_of_lt (by omega))
    refine everyPart_toExpr ?_ ?_ (by simp)
    · dsimp only
      rw [doubleFactorial_odd]
      exact exactLiteral_overlapCoefficients _
        (mem_overlapCoefficients m (by omega) n (by omega) j (by omega) s (by omega))
    · simp only [List.forall_mem_cons]
      refine ⟨⟨?_, fun h => ?_⟩, ⟨?_, fun h => ?_⟩, ⟨?_, fun _ => rfl⟩, by simp⟩
      · exact isSymbol_centreSymbol (w := ['P', 'A']) (by decide) _
      · omega
      · exact isSymbol_centreSymbol (w := ['P', 'B']) (by decide) _
      · omega
      · exact isSymbol_word (w := ['Y']) (by decide)

/-- The exponents of a triad lie between 0 and a bound. -/
def Triad.Within (t : Triad) (n : ℤ) : Prop := ∀ a, 0 ≤ t.on a ∧ t.on a ≤ n

theorem Triad.Within.shift {t : Triad} {n : ℤ} (h : t.Within n) {a : Axis} {delta : ℤ}
    (h0 : 0 ≤ t.on a + delta) (h5 : t.on a + delta ≤ 5) (hn : n ≤ 5) :
    (t.shift delta a).Within 5 := by
  intro b
  by_cases hab : a = b
  · rw [← hab, Triad.on_shift_self]
    exact ⟨h0, h5⟩
  · rw [Triad.on_shift_of_ne t delta hab]
    exact ⟨(h b).1, (h b).2.trans hn⟩

theorem everyPart_overlap {t1 t2 : Triad} (h1 : t1.Within 3) (h2 : t2.Within 5) :
    EveryPart Emittable (overlap t1 t2) := by
  refine everyPart_product.2 ⟨trivial, ?_⟩
  rw [List.forall_mem_map]
  intro a _
  exact everyPart_overlapSum (h1 a) (h2 a) a.number

/-! ## Kinetic energy and momentum -/

section Operators

variable {t1 t2 : Triad} (h1 : t1.Within 3) (h2 : t2.Within 3)

include h1 h2

theorem everyPart_raisedOverlap {step : ℤ} (hs : 0 ≤ step ∧ step ≤ 2) (a : Axis) :
    EveryPart Emittable (overlap t1 (t2.shift step a)) := by
  have ha := h2 a
  exact everyPart_overlap h1 (h2.shift (by omega) (by omega) (by decide))

theorem everyPart_loweredOverlap {step : ℤ} (hs : 0 ≤ step) (a : Axis) :
    EveryPart Emittable (loweredOverlap t1 t2 step a) := by
  unfold loweredOverlap
  split
  · have ha := h2 a
    exact everyPart_overlap h1 (h2.shift (by omega) (by omega) (by decide))
  · exact everyPart_zero

theorem everyPart_kineticBase : EveryPart Emittable (kineticBase t1 t2) := by
  have hx := h2 .x
  have hy := h2 .y
  have hz := h2 .z
  refine everyPart_weighted ?_ ?_
  · simp only [Axis.all, List.foldl_cons, List.foldl_nil]
    omega
  · simp only [List.forall_mem_cons]
    refine ⟨everyPart_symbol.2 (isSymbol_word (w := ['a', '2']) (by decide)), ?_, by simp⟩
    exact everyPart_overlap h1 fun a => ⟨(h2 a).1, (h2 a).2.trans (by decide)⟩

theorem everyPart_kineticRaised (a : Axis) : EveryPart Emittable (kineticRaised t1 t2 a) := by
  have hc : (-2 : ℚ) = ((-2 : ℤ) : ℚ) := rfl
  rw [kineticRaised, hc]
  refine everyPart_weighted (by decide) ?_
  simp only [List.forall_mem_cons]
  refine ⟨everyPart_power.2 ⟨?_, fun h => ?_⟩, ?_, by simp⟩
  · exact isSymbol_word (w := ['a', '2']) (by decide)
  · omega
  · exact everyPart_raisedOverlap h1 h2 (by decide) a

theorem everyPart_kineticLowered (a : Axis) : EveryPart Emittable (kineticLowered t1 t2 a) := by
  have ha := h2 a
  -- the weight -(d ^ 2 - d) / 2 is an integer
  obtain ⟨k, hk, hweight⟩ : ∃ k : ℤ, k.natAbs ≤ 10 ^ 18 ∧
      -(((t2.on a * t2.on a - t2.on a : ℤ) : ℚ) / 2) = k := by
    obtain ⟨hlow, hhigh⟩ := ha
    generalize t2.on a = d at hlow hhigh
    interval_cases d
    · exact ⟨0, by decide, by norm_num⟩
    · exact ⟨0, by decide, by norm_num⟩
    · exact ⟨-1, by decide, by norm_num⟩
    · exact ⟨-3, by decide, by norm_num⟩
  unfold kineticLowered
  dsimp only
  rw [hweight]
  refine everyPart_weighted hk ?_
  simp only [List.forall_mem_cons]
  exact ⟨everyPart_loweredOverlap h1 h2 (by decide) a, by simp⟩

theorem everyPart_kineticEnergy : EveryPart Emittable (kineticEnergy t1 t2 "coef") := by
  refine everyPart_product.2 ⟨trivial, ?_⟩
  simp only [List.forall_mem_cons]
  refine ⟨everyPart_symbol.2 (isSymbol_word (w := ['c', 'o', 'e', 'f']) (by decide)),
    everyPart_sum.2 ⟨trivial, ?_⟩, by simp⟩
  simp only [List.forall_mem_cons, List.forall_mem_append, List.forall_mem_map]
  exact ⟨everyPart_kineticBase h1 h2, fun a _ => everyPart_kineticRaised h1 h2 a,
    fun a _ => everyPart_kineticLowered h1 h2 a⟩

theorem everyPart_momentum (a : Axis) : EveryPart Emittable (momentum t1 t2 a "preFactor") := by
  have ha := h2 a
  have hc : (-2 : ℚ) = ((-2 : ℤ) : ℚ) := rfl
  refine everyPart_product.2 ⟨trivial, ?_⟩
  simp only [List.forall_mem_cons]
  refine ⟨everyPart_symbol.2
    (isSymbol_word (w := ['p', 'r', 'e', 'F', 'a', 'c', 't', 'o', 'r']) (by decide)),
    everyPart_sum.2 ⟨trivial, ?_⟩, by simp⟩
  simp only [List.forall_mem_cons]
  refine ⟨everyPart_weighted (by omega) ?_, ?_, by simp⟩
  · simp only [List.forall_mem_cons]
    exact ⟨everyPart_group.2 ⟨trivial, everyPart_loweredOverlap h1 h2 (by decide) a⟩, by simp⟩
  · rw [hc]
    refine everyPart_weighted (by decide) ?_
    simp only [List.forall_mem_cons]
    exact ⟨everyPart_symbol.2 (isSymbol_word (w := ['a', '2']) (by decide)),
      everyPart_group.2 ⟨trivial, everyPart_raisedOverlap h1 h2 (by decide) a⟩, by simp⟩

end Operators

/-! ## The families -/

/-- The rules keep expressions emittable where the short names are symbols. -/
theorem inherited_emittable {map : AliasMap} (h : ∀ p ∈ map, IsSymbol p.2) :
    Inherited map Emittable where
  toLeafProperty := leafProperty_emittable
  zero := exactLiteral_of_natAbs_le (v := 0) (by decide)
  one := exactLiteral_of_natAbs_le (v := 1) (by decide)
  symbol _ hb := hb.1
  powerAlias b k n hn _ := by
    obtain ⟨l₁, l₂, rfl, -⟩ := List.lookup_eq_some_iff.1 hn
    exact h ((b, k), n) (by simp)
  symbolAlias b n hn _ := by
    obtain ⟨l₁, l₂, rfl, -⟩ := List.lookup_eq_some_iff.1 hn
    exact h ((b, 1), n) (by simp)

theorem isSymbol_nuclearAliases : ∀ p ∈ AliasMap.nuclear, IsSymbol p.2 := by
  simp only [AliasMap.nuclear, List.forall_mem_cons]
  exact ⟨isSymbol_word (w := ['e', '1']) (by decide), isSymbol_word (w := ['e', '2']) (by decide),
    isSymbol_word (w := ['e', '3']) (by decide), by simp⟩

theorem isSymbol_kineticAliases : ∀ p ∈ AliasMap.kinetic, IsSymbol p.2 := by
  simp only [AliasMap.kinetic, List.forall_mem_cons]
  exact ⟨isSymbol_word (w := ['Y', '1']) (by decide), isSymbol_word (w := ['Y', '2']) (by decide),
    isSymbol_word (w := ['Y', '3']) (by decide), isSymbol_word (w := ['Y', '4']) (by decide),
    isSymbol_word (w := ['a', '2', '_', '2']) (by decide), by simp⟩

theorem within_of_mem_table {t : Triad} (h : t ∈ Triad.table) : t.Within 3 := by
  have htable : ∀ t ∈ Triad.table,
      (0 ≤ t.l ∧ t.l ≤ 3) ∧ (0 ≤ t.m ∧ t.m ≤ 3) ∧ 0 ≤ t.n ∧ t.n ≤ 3 := by
    decide
  obtain ⟨hl, hm, hn⟩ := htable t h
  intro a
  cases a
  · exact hl
  · exact hm
  · exact hn

theorem Triad.Within.exists_exponents {t : Triad} {n : ℕ} (h : t.Within n) :
    ∃ e : Axis → ℕ, t = .ofExponents e ∧ ∀ a, e a ≤ n := by
  refine ⟨fun a => (t.on a).toNat, ?_, fun a => ?_⟩
  · have hon : ∀ a, ((t.on a).toNat : ℤ) = t.on a := fun a => Int.toNat_of_nonneg (h a).1
    rw [ofExponents, hon, hon, hon]
    rfl
  · have ha := h a
    dsimp only
    omega

/-- The orbitals 1 to 20 have triads. -/
theorem exists_ofOrbital {o : ℤ} (h : 1 ≤ o ∧ o ≤ 20) :
    ∃ t ∈ Triad.table, Triad.ofOrbital o = .ok t := by
  have hlength : Triad.table.length = 20 := rfl
  have hlt : o.toNat - 1 < Triad.table.length := by omega
  refine ⟨Triad.table[o.toNat - 1], List.getElem_mem hlt, ?_⟩
  rw [Triad.ofOrbital, if_neg (by omega), List.getElem?_eq_getElem hlt]

/-- Along every axis of a family orbitals up to exponent 3 have a formula, which is emittable. -/
theorem exists_expander (n : FamilyName) {axis : Option ℤ} (haxis : axis ∈ n.family.axes)
    {t1 t2 : Triad} (h1 : t1.Within 3) (h2 : t2.Within 3) :
    ∃ a prefactor, n.family.expander t1 t2 axis = .ok (familyFormula n t1 t2 a prefactor) ∧
      EveryPart Emittable (familyFormula n t1 t2 a prefactor) := by
  cases n with
  | nuclear =>
    obtain ⟨e1, rfl, he1⟩ := Triad.Within.exists_exponents (n := 3) h1
    obtain ⟨e2, rfl, he2⟩ := Triad.Within.exists_exponents (n := 3) h2
    exact ⟨.x, _, rfl, everyPart_nuclearAttraction he1 he2⟩
  | kinetic => exact ⟨.x, _, rfl, everyPart_kineticEnergy h1 h2⟩
  | momentum =>
    have hcases : axis = some 0 ∨ axis = some 1 ∨ axis = some 2 := by
      simpa [FamilyName.family, Family.momentum] using haxis
    rcases hcases with rfl | rfl | rfl
    · exact ⟨.x, _, rfl, everyPart_momentum h1 h2 .x⟩
    · exact ⟨.y, _, rfl, everyPart_momentum h1 h2 .y⟩
    · exact ⟨.z, _, rfl, everyPart_momentum h1 h2 .z⟩

/-- The rules bring no new exponents. -/
theorem inherited_exponentWithin (map : AliasMap) (bound : ℕ) :
    Inherited map (ExponentWithin bound) where
  toLeafProperty := leafProperty_exponentWithin
  zero := trivial
  one := trivial
  symbol _ _ := trivial
  powerAlias _ _ _ _ _ := trivial
  symbolAlias _ _ _ _ := trivial

/-- The short form of a raw entry; its exponents have few digits. -/
theorem exists_expand (n : FamilyName) {axis : Option ℤ} (haxis : axis ∈ n.family.axes)
    {o1 o2 : ℤ} (h1 : 1 ≤ o1 ∧ o1 ≤ 20) (h2 : 1 ≤ o2 ∧ o2 ≤ 20) :
    ∃ e, n.family.expand o1 o2 axis = .ok e ∧ EveryPart Emittable e ∧
      EveryPart (ExponentWithin 11) e := by
  obtain ⟨t1, hmem1, ht1⟩ := exists_ofOrbital h1
  obtain ⟨t2, hmem2, ht2⟩ := exists_ofOrbital h2
  have hwithin1 := within_of_mem_table hmem1
  have hwithin2 := within_of_mem_table hmem2
  obtain ⟨a, prefactor, he, hparts⟩ := exists_expander n haxis hwithin1 hwithin2
  have hexponents : EveryPart (ExponentWithin 11) (familyFormula n t1 t2 a prefactor) := by
    obtain ⟨e1, rfl, he1⟩ := Triad.Within.exists_exponents (n := 3) hwithin1
    obtain ⟨e2, rfl, he2⟩ := Triad.Within.exists_exponents (n := 3) hwithin2
    exact exponentWithin_familyFormula he1 he2 n a prefactor
  refine ⟨simplifyWith n.family.rules (familyFormula n t1 t2 a prefactor), ?_, ?_⟩
  · simp [Family.expand, Family.expandRaw, ht1, ht2, he, Except.mapError, bind, Except.bind]
  · cases n with
    | nuclear =>
      exact ⟨(inherited_emittable isSymbol_nuclearAliases).everyPart_simplifyWith hparts,
        (inherited_exponentWithin .nuclear 11).everyPart_simplifyWith hexponents⟩
    | kinetic =>
      exact ⟨(inherited_emittable isSymbol_kineticAliases).everyPart_simplifyWith hparts,
        (inherited_exponentWithin .kinetic 11).everyPart_simplifyWith hexponents⟩
    | momentum =>
      have hnone : ∀ p ∈ AliasMap.momentum, IsSymbol p.2 := by simp [AliasMap.momentum]
      exact ⟨(inherited_emittable hnone).everyPart_simplifyWith hparts,
        (inherited_exponentWithin .momentum 11).everyPart_simplifyWith hexponents⟩

end GaussianIntegrals
