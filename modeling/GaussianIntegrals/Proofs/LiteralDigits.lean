/-
  Literals lose nothing up to fifteen significant digits. A number of at most fifteen digits is
  rounded twice, to 53 bits and from there to fifteen digits: the first rounding moves it by less
  than `1 / (2 · 10 ^ 15)` of itself, which is all that the second one needs
  (`exists_nearest_rounding`). The text of the digits denotes their number in both notations
  (`numeral?_write_of_full`), so the literal denotes the number that it was made from.

  Integers are written in full and are not rounded at all.
-/
import GaussianIntegrals.Proofs.FormulaTexts
import GaussianIntegrals.Proofs.QuotientRounding

namespace GaussianIntegrals

open GaussianIntegrals.Number GaussianIntegrals.Code

/-- The number has a finite decimal expansion with at most `p` significant digits. -/
def HasDigits (p : ℕ) (v : ℚ) : Prop := ∃ m k : ℤ, |m| < 10 ^ p ∧ v = m * 10 ^ k

/-- A number that is not 0 can be written with exactly `p` digits. -/
theorem HasDigits.exists_significant {p : ℕ} {v : ℚ} (h : HasDigits p v) (hv : v ≠ 0) :
    ∃ s : Significant, s.IsFull p ∧ s.value p = |v| := by
  obtain ⟨m, k, hm, rfl⟩ := h
  have hpos : m.natAbs ≠ 0 := by
    rintro h
    rw [Int.natAbs_eq_zero.1 h, Int.cast_zero, zero_mul] at hv
    exact hv rfl
  have hlt : m.natAbs < 10 ^ p := by
    have : (m.natAbs : ℤ) < 10 ^ p := by rwa [Int.natCast_natAbs]
    exact_mod_cast this
  have hlow := Nat.pow_log_le_self 10 hpos
  have hhigh := Nat.lt_pow_succ_log_self (b := 10) (by decide) m.natAbs
  have hlog : Nat.log 10 m.natAbs < p := (Nat.log_lt_iff_lt_pow (by decide) hpos).2 hlt
  generalize Nat.log 10 m.natAbs = l at hlow hhigh hlog
  -- zeros fill the places up to the last of the `p` digits
  obtain ⟨i, rfl⟩ := Nat.exists_eq_add_of_lt hlog
  refine ⟨⟨m.natAbs * 10 ^ i, k + l⟩, ⟨?_, ?_⟩, ?_⟩
  · rw [Nat.add_sub_cancel, pow_add]
    exact Nat.mul_le_mul_right _ hlow
  · rw [add_right_comm, pow_add]
    exact Nat.mul_lt_mul_of_pos_right hhigh (Nat.pow_pos (by decide))
  · rw [Significant.value, Nat.cast_mul, Nat.cast_pow, Nat.cast_ofNat, mul_assoc,
      pow_mul_zpow (by decide), abs_mul, abs_of_pos (ten_zpow_pos k), Nat.cast_natAbs, Int.cast_abs]
    congr 2
    push_cast
    omega

/-- Numbers down to `10 ^ -290` are normal. -/
theorem leastNormal_le : Binary.leastNormal.value ≤ 10 ^ (-290 : ℤ) := by
  have hbase : ((2 : ℚ) ^ 17)⁻¹ ≤ (10 ^ 5)⁻¹ := by norm_num
  calc Binary.leastNormal.value = 2 ^ (-1022 : ℤ) := Binary.leastNormal_value
    _ ≤ 2 ^ (-986 : ℤ) := zpow_le_zpow_right₀ (by norm_num) (by decide)
    _ = ((2 ^ 17)⁻¹) ^ 58 := by rw [inv_pow, ← pow_mul, ← zpow_natCast, ← zpow_neg]; rfl
    _ ≤ ((10 ^ 5)⁻¹) ^ 58 := pow_le_pow_left₀ (by norm_num) hbase 58
    _ = 10 ^ (-290 : ℤ) := by rw [inv_pow, ← pow_mul, ← zpow_natCast, ← zpow_neg]; rfl

theorem le_greatest : 10 ^ 15 ≤ Binary.greatest.value := by
  have hone : (1 : ℚ) ≤ 2 ^ greatestExponent := one_le_zpow₀ (by norm_num) (by decide)
  calc (10 : ℚ) ^ 15 ≤ ((2 ^ 53 - 1 : ℕ) : ℚ) := by norm_num
    _ ≤ Binary.greatest.value := le_mul_of_one_le_right (Nat.cast_nonneg _) hone

/-- **Fifteen digits survive the two roundings**: the nearest number of 53 bits, rounded to
fifteen digits, has the digits that the number had. -/
theorem exists_nearest_rounding {v : ℚ} (h : HasDigits 15 v) (hlow : 10 ^ (-290 : ℤ) ≤ |v|)
    (hhigh : |v| ≤ Binary.greatest.value) :
    ∃ b s, Binary.nearest? v.num.natAbs v.den = some b ∧ b.IsNearest |v| ∧
      Significant.round 15 b.toQuotient.1 b.toQuotient.2 = s ∧ s.IsFull 15 ∧ s.value 15 = |v| := by
  have hpos : 0 < |v| := (ten_zpow_pos _).trans_le hlow
  obtain ⟨s, hs, hvalue⟩ := h.exists_significant (abs_pos.1 hpos)
  obtain ⟨b, hb, hnearest⟩ := Binary.exists_nearest? v.den_pos
    (by rw [← abs_eq_natAbs_div]; exact leastNormal_le.trans hlow)
    (by rwa [← abs_eq_natAbs_div])
  rw [← abs_eq_natAbs_div] at hnearest
  refine ⟨b, s, hb, hnearest, s.round_eq (by decide) hs ?_ b.toQuotient_pos, hs, hvalue⟩
  have hrelative := hnearest.relative
  rw [b.toQuotient_value, hvalue, abs_sub_comm]
  linarith

/-! ## Texts of digits -/

/-- The text of fifteen digits denotes their number. -/
theorem numeral?_write_of_full {s : Significant} (h : s.IsFull 15) :
    numeral? (literalForm.write s) = some (s.value 15) := by
  have hlength : (padZeros 15 (digitChars s.digits)).length = 15 := by
    have hdigits : (digitChars s.digits).length ≤ 15 :=
      (Nat.length_toDigits_le_iff (by decide) (by decide)).2 h.2
    rw [padZeros, List.length_append, List.length_replicate]
    omega
  rw [numeral?_write, hlength]
  rfl

/-- A number with `p` digits that is no integer is below `10 ^ p`. -/
theorem HasDigits.abs_lt {p : ℕ} {v : ℚ} (h : HasDigits p v) (hden : v.den ≠ 1) :
    |v| < 10 ^ p := by
  obtain ⟨m, k, hm, rfl⟩ := h
  have hm' : |(m : ℚ)| < 10 ^ p := by exact_mod_cast hm
  rcases lt_or_ge k 0 with hk | hk
  · rw [abs_mul, abs_of_pos (ten_zpow_pos k)]
    exact (mul_le_of_le_one_right (abs_nonneg _)
      (zpow_le_one_of_nonpos₀ (by norm_num) hk.le)).trans_lt hm'
  · obtain ⟨i, rfl⟩ := Int.eq_ofNat_of_zero_le hk
    refine absurd ?_ hden
    have hcast : (m : ℚ) * 10 ^ (i : ℤ) = ((m * 10 ^ i : ℤ) : ℚ) := by
      push_cast
      rw [zpow_natCast]
    rw [hcast, Rat.den_intCast]

/-- A number with fifteen digits that is no integer has an exact literal. -/
theorem HasDigits.exactLiteral {v : ℚ} (h : HasDigits 15 v) (hden : v.den ≠ 1)
    (hlow : 10 ^ (-290 : ℤ) ≤ |v|) : ExactLiteral v := by
  have hhigh : |v| ≤ Binary.greatest.value :=
    (h.abs_lt hden).le.trans le_greatest
  obtain ⟨b, s, hb, -, hround, hs, hvalue⟩ := exists_nearest_rounding h hlow hhigh
  have hchars := numeral?_write_of_full hs
  refine exactLiteral_fraction hden ?_
  rw [fractionChars?, hb, Option.map_some, Option.bind_some]
  show decimal? (if v.num < 0 then
      '-' :: literalForm.write (Significant.round 15 b.toQuotient.1 b.toQuotient.2)
    else literalForm.write (Significant.round 15 b.toQuotient.1 b.toQuotient.2)) = _
  rw [hround]
  simp only [Rat.num_neg]
  split
  · next hneg => rw [decimal?, hchars, Option.map_some, hvalue, abs_of_neg hneg, neg_neg]
  · next hneg => rw [decimal?_of_numeral hchars, hvalue, abs_of_nonneg (not_lt.1 hneg)]

/-! ## Literals -/

/-- An integer that has a decimal text, or a number of fifteen digits down to `10 ^ -290`. -/
def IsShort (v : ℚ) : Prop :=
  if v.den = 1 then v.num.natAbs < 10 ^ Text.digitLimit
  else HasDigits 15 v ∧ 10 ^ (-290 : ℤ) ≤ |v|

theorem IsShort.exactLiteral {v : ℚ} (h : IsShort v) : ExactLiteral v := by
  unfold IsShort at h
  split at h
  · next hden =>
    rw [← Rat.coe_int_num_of_den_eq_one hden]
    exact exactLiteral_intCast h
  · next hden => exact h.1.exactLiteral hden h.2

/-- **Literals lose nothing up to fifteen digits.** An integer that has a decimal text has a
literal that denotes it, and so has a number with at most fifteen significant digits and not
below `10 ^ -290`, an integer among them if it has a text. Such a number, where it is not beyond
the greatest binary number, comes back from the nearest number of 53 bits by rounding to fifteen
digits. An expression with such coefficients only has a text. -/
theorem literals_lose_nothing :
    (∀ k : ℤ, k.natAbs < 10 ^ Text.digitLimit → ExactLiteral k) ∧
      (∀ v : ℚ, HasDigits 15 v → 10 ^ (-290 : ℤ) ≤ |v| →
        ((v.den = 1 → v.num.natAbs < 10 ^ Text.digitLimit) → ExactLiteral v) ∧
        (|v| ≤ Binary.greatest.value →
          ∃ b s, Binary.nearest? v.num.natAbs v.den = some b ∧ b.IsNearest |v| ∧
            Significant.round 15 b.toQuotient.1 b.toQuotient.2 = s ∧
            s.IsFull 15 ∧ s.value 15 = |v|)) ∧
      (∀ e : Expr, (∀ v, .const v ∈ e.walk → IsShort v) →
        (∀ b k, .power b k ∈ e.walk → Text.Writable k) → ∃ s, e.render = .ok s) ∧
      ∀ (n : FamilyName) (t1 t2 : Axis → ℕ) (a : Axis) (prefactor : String),
        (∀ v, .const v ∈ (familyFormula n (.ofExponents t1) (.ofExponents t2) a prefactor).walk →
          IsShort v) →
        ∀ e ∈ [familyFormula n (.ofExponents t1) (.ofExponents t2) a prefactor,
            simplifyWith n.family.rules
              (familyFormula n (.ofExponents t1) (.ofExponents t2) a prefactor)],
          ∃ s, e.render = .ok s := by
  have hliteral : ∀ v, IsShort v → ∃ s, literal v = .ok s := fun v hv =>
    hv.exactLiteral.imp fun _ h => h.1
  refine ⟨fun k hk => exactLiteral_intCast hk, fun v h hlow => ⟨fun hden => ?_, fun hhigh =>
    exists_nearest_rounding h hlow hhigh⟩, fun e he hk => Expr.exists_render fun c hc => ?_,
    fun n t1 t2 a prefactor h => ?_⟩
  · apply IsShort.exactLiteral
    unfold IsShort
    split
    · next hone => exact hden hone
    · exact ⟨h, hlow⟩
  · cases c with
    | const v => exact hliteral v (he v hc)
    | power b k => exact hk b k hc
    | _ => trivial
  · have hprintable := printable_familyFormula n t1 t2 a prefactor fun v hv => hliteral v (h v hv)
    simp only [List.forall_mem_cons]
    exact ⟨Expr.exists_render hprintable,
      Expr.exists_render (printable_simplifyWith hprintable), List.forall_mem_nil _⟩

/-- The number, if the expression is a constant. -/
def Expr.constant? : Expr → Option ℚ
  | .const v => some v
  | _ => none

/-- The number `-10 ^ -5`, written with an exponent. -/
def tinySample : ℚ := -1 / 100000

theorem literals_lose_nothing_tiny :
    ExactLiteral ((-7 : ℤ) : ℚ) ∧ ExactLiteral tinySample ∧
      (∃ b s, Binary.nearest? 1 100000 = some b ∧ b.IsNearest |tinySample| ∧
        Significant.round 15 b.toQuotient.1 b.toQuotient.2 = s ∧ s.IsFull 15 ∧
        s.value 15 = |tinySample|) ∧
      (∃ s, (Expr.sum [.symbol "x", .product [.const tinySample, .power "y" (-3)]]).render =
        .ok s) ∧
      ∀ e ∈ [familyFormula .momentum (.ofExponents 0) (.ofExponents 0) .x "c",
          simplifyWith FamilyName.momentum.family.rules
            (familyFormula .momentum (.ofExponents 0) (.ofExponents 0) .x "c")],
        ∃ s, e.render = .ok s := by
  have hnum : tinySample.num = -1 := by decide +kernel
  have hden : tinySample.den = 100000 := by decide +kernel
  have hdigits : HasDigits 15 tinySample :=
    ⟨-1, -5, by decide, by rw [tinySample]; norm_num⟩
  have habs : |tinySample| = 10 ^ (-5 : ℤ) := by rw [tinySample]; norm_num [abs_div]
  have hlow : 10 ^ (-290 : ℤ) ≤ |tinySample| := by
    rw [habs]
    exact zpow_le_zpow_right₀ (by norm_num) (by decide)
  have hhigh : |tinySample| ≤ Binary.greatest.value := by
    refine le_trans ?_ le_greatest
    rw [habs]
    norm_num
  have hseven : (-7 : ℤ).natAbs < 10 ^ Text.digitLimit :=
    lt_of_lt_of_le (b := 10 ^ 1) (by decide) (Nat.pow_le_pow_right (by decide) (by decide))
  have hwalk : (familyFormula .momentum (.ofExponents 0) (.ofExponents 0) .x "c").walk.filterMap
      Expr.constant? = [0, 0, -2, 1, 1, 1] := by
    decide +kernel
  have hintegers : ∀ v ∈ [(0 : ℚ), 0, -2, 1, 1, 1], v.den = 1 ∧ v.num.natAbs ≤ 10 ^ 18 := by
    decide
  obtain ⟨hinteger, hshort, hrender, hformulas⟩ := literals_lose_nothing
  obtain ⟨hexact, hround⟩ := hshort tinySample hdigits hlow
  refine ⟨hinteger (-7) hseven, hexact fun h => ?_, ?_,
    hrender _ (fun v hv => ?_) fun b k hk => ?_,
    hformulas .momentum 0 0 .x "c" fun v hv => ?_⟩
  · rw [hden] at h
    cases h
  · have h := hround hhigh
    rw [hnum, hden] at h
    exact h
  · simp only [Expr.walk, Expr.walkAll, List.mem_cons, List.mem_append, Expr.const.injEq,
      reduceCtorEq, List.not_mem_nil, false_or, or_false] at hv
    subst hv
    rw [IsShort, if_neg (by rw [hden]; decide)]
    exact ⟨hdigits, hlow⟩
  · simp only [Expr.walk, Expr.walkAll, List.mem_cons, List.mem_append, Expr.power.injEq,
      reduceCtorEq, List.not_mem_nil, false_or, or_false] at hk
    rw [hk.2]
    exact Text.writable_of_natAbs_le (by decide)
  · obtain ⟨hone, hsmall⟩ := hintegers v (hwalk ▸ List.mem_filterMap.2 ⟨_, hv, rfl⟩)
    rw [IsShort, if_pos hone]
    exact (Text.writable_of_natAbs_le hsmall).natAbs_lt

end GaussianIntegrals
