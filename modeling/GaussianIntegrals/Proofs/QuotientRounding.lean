/-
  Quotients of natural numbers, rounded on scales of powers. The exponents that the numbers'
  digits and bits give are logarithms (`leadingExponent_eq_log`, `spacing_eq_log`), a rounded
  quotient is at most half a unit away and even in a tie (`roundAt_near`, `even_roundAt`).

  From this:
  * `Binary.exists_nearest?`: in the range of normal numbers there is a nearest binary number of
    53 significant bits, as `Binary.IsNearest` says it.
  * `Binary.nearest?_eq_none_iff`: there is none from half a unit above the greatest number on.
  * `Significant.round_eq`: a quotient so near to a number of `p` digits that the relative
    difference is below `1 / (2 · 10 ^ p)` has the digits of that number. The number may be a
    power of ten and the quotient below it: then it has one digit less before the point, and
    rounding carries into a new one.
-/
import GaussianIntegrals.Number.Binary
import GaussianIntegrals.Number.Decimal
import Mathlib.Data.Int.Log
import Mathlib.Data.Rat.Floor
import Mathlib.Tactic.Linarith
import Mathlib.Tactic.NormNum

namespace GaussianIntegrals.Number

/-! ## Powers as quotients -/

theorem abs_eq_natAbs_div (v : ℚ) : |v| = (v.num.natAbs : ℚ) / v.den := by
  have hcast : ((v.num.natAbs : ℕ) : ℚ) = |(v.num : ℚ)| := by
    rw [Nat.cast_natAbs, Int.cast_abs]
  rw [hcast, ← Nat.abs_cast v.den, ← abs_div, Rat.num_div_den]

theorem pow_mul_zpow {a : ℚ} (ha : a ≠ 0) (i : ℕ) (k : ℤ) : a ^ i * a ^ k = a ^ (k + i) := by
  rw [← zpow_natCast, ← zpow_add₀ ha, add_comm]

theorem powQuotient_pos {b : ℕ} (hb : 0 < b) (e : ℤ) :
    0 < (powQuotient b e).1 ∧ 0 < (powQuotient b e).2 := by
  have hpow : 0 < Nat.pow b e.natAbs := Nat.pow_pos hb
  unfold powQuotient
  split
  · exact ⟨one_pos, hpow⟩
  · exact ⟨hpow, one_pos⟩

theorem powQuotient_value {b : ℕ} (hb : 0 < b) (e : ℤ) :
    ((powQuotient b e).1 : ℚ) = (b : ℚ) ^ e * (powQuotient b e).2 := by
  have hb' : (b : ℚ) ≠ 0 := by positivity
  unfold powQuotient
  split
  · next he =>
    have habs : e = -(e.natAbs : ℤ) := by omega
    have hpow : (b : ℚ) ^ e * (b : ℚ) ^ e.natAbs = 1 := by
      rw [← zpow_natCast, ← zpow_add₀ hb', show e + (e.natAbs : ℤ) = 0 by omega, zpow_zero]
    simpa using hpow.symm
  · next he =>
    have habs : (e.natAbs : ℤ) = e := by omega
    have hpow : (b : ℚ) ^ e = (b : ℚ) ^ e.natAbs := by rw [← zpow_natCast, habs]
    simpa using hpow.symm

section

variable {b n d : ℕ} (hb : 0 < b) (hd : 0 < d)

include hb hd

/-- The scaled quotient as a quotient. -/
theorem scaled_quotient (n : ℕ) (e : ℤ) :
    ((n * (powQuotient b e).2 : ℕ) : ℚ) / ((d * (powQuotient b e).1 : ℕ) : ℚ) =
      (n : ℚ) / d / (b : ℚ) ^ e := by
  have hq : ((powQuotient b e).2 : ℚ) ≠ 0 := Nat.cast_ne_zero.2 (powQuotient_pos hb e).2.ne'
  have hpow : (b : ℚ) ^ e ≠ 0 := zpow_ne_zero e (by positivity)
  have hd' : (d : ℚ) ≠ 0 := by positivity
  rw [Nat.cast_mul, Nat.cast_mul, powQuotient_value hb]
  field_simp

/-- The comparison that the exponents are found by. -/
theorem lt_mul_powQuotient (n c : ℕ) (e : ℤ) :
    n * (powQuotient b e).2 < c * (d * (powQuotient b e).1) ↔
      (n : ℚ) / d < c * (b : ℚ) ^ e := by
  have hpos := Nat.mul_pos hd (powQuotient_pos hb e).1
  have hpow : 0 < (b : ℚ) ^ e := zpow_pos (by positivity) e
  rw [← Nat.cast_lt (α := ℚ), Nat.cast_mul c, ← div_lt_iff₀ (Nat.cast_pos.2 hpos),
    scaled_quotient hb hd, div_lt_iff₀ hpow]

end

/-! ## Exponents -/

/-- From the logarithms of a numerator and a denominator, that of the quotient. -/
theorem log_quotient {b n d : ℕ} (hb : 1 < b) (hn : 0 < n) (hd : 0 < d) :
    Int.log b ((n : ℚ) / d) =
      if (n : ℚ) / d < (b : ℚ) ^ ((Nat.log b n : ℤ) - Nat.log b d) then
        (Nat.log b n : ℤ) - Nat.log b d - 1
      else (Nat.log b n : ℤ) - Nat.log b d := by
  have hb' : (b : ℚ) ≠ 0 := by positivity
  have hd' : (0 : ℚ) < d := Nat.cast_pos.2 hd
  have hx : (0 : ℚ) < (n : ℚ) / d := div_pos (Nat.cast_pos.2 hn) hd'
  have hnlow : (b : ℚ) ^ (Nat.log b n : ℤ) ≤ n := by
    exact_mod_cast Nat.pow_log_le_self b hn.ne'
  have hnhigh : (n : ℚ) < (b : ℚ) ^ ((Nat.log b n : ℤ) + 1) := by
    exact_mod_cast Nat.lt_pow_succ_log_self hb n
  have hdlow : (b : ℚ) ^ (Nat.log b d : ℤ) ≤ d := by
    exact_mod_cast Nat.pow_log_le_self b hd.ne'
  have hdhigh : (d : ℚ) < (b : ℚ) ^ ((Nat.log b d : ℤ) + 1) := by
    exact_mod_cast Nat.lt_pow_succ_log_self hb d
  have hpow : ∀ k : ℤ, 0 ≤ (b : ℚ) ^ k := zpow_nonneg (Nat.cast_nonneg b)
  generalize (Nat.log b n : ℤ) = i at *
  generalize (Nat.log b d : ℤ) = j at *
  have hlow : (b : ℚ) ^ (i - j - 1) ≤ (n : ℚ) / d := by
    rw [le_div_iff₀ hd']
    calc (b : ℚ) ^ (i - j - 1) * d ≤ (b : ℚ) ^ (i - j - 1) * (b : ℚ) ^ (j + 1) :=
          mul_le_mul_of_nonneg_left hdhigh.le (hpow _)
      _ = (b : ℚ) ^ i := by rw [← zpow_add₀ hb']; congr 1; omega
      _ ≤ n := hnlow
  have hhigh : (n : ℚ) / d < (b : ℚ) ^ (i - j + 1) := by
    rw [div_lt_iff₀ hd']
    calc (n : ℚ) < (b : ℚ) ^ (i + 1) := hnhigh
      _ = (b : ℚ) ^ (i - j + 1) * (b : ℚ) ^ j := by rw [← zpow_add₀ hb']; congr 1; omega
      _ ≤ (b : ℚ) ^ (i - j + 1) * d := mul_le_mul_of_nonneg_left hdlow (hpow _)
  have h1 := (Int.zpow_le_iff_le_log hb hx).1 hlow
  have h2 := (Int.lt_zpow_iff_log_lt hb hx).1 hhigh
  have h3 := Int.lt_zpow_iff_log_lt hb hx (x := i - j)
  split
  · next h =>
    have := h3.1 h
    omega
  · next h =>
    have := mt h3.2 h
    omega

theorem length_digitChars {n : ℕ} (hn : 0 < n) : (digitChars n).length = Nat.log 10 n + 1 := by
  refine le_antisymm ?_ (Nat.lt_of_not_le fun h => ?_)
  · exact (Nat.length_toDigits_le_iff (by decide) (Nat.succ_pos _)).2
      (Nat.lt_pow_succ_log_self (by decide) n)
  · rcases Nat.eq_zero_or_pos (Nat.log 10 n) with hzero | hpos
    · rw [hzero] at h
      exact absurd Nat.length_toDigits_pos (not_lt.2 h)
    · exact absurd (Nat.pow_log_le_self 10 hn.ne')
        (not_le.2 ((Nat.length_toDigits_le_iff (by decide) hpos).1 h))

/-- The exponent of the first digit. -/
theorem leadingExponent_eq_log {n d : ℕ} (hn : 0 < n) (hd : 0 < d) :
    leadingExponent n d = Int.log 10 ((n : ℚ) / d) := by
  have hlength : ((digitChars n).length : ℤ) - (digitChars d).length =
      (Nat.log 10 n : ℤ) - Nat.log 10 d := by
    rw [length_digitChars hn, length_digitChars hd]
    omega
  have hlt := lt_mul_powQuotient (b := 10) (by decide) hd n 1
    ((Nat.log 10 n : ℤ) - Nat.log 10 d)
  rw [one_mul, Nat.cast_one, one_mul] at hlt
  simp only [leadingExponent, hlength]
  rw [log_quotient (by decide) hn hd]
  exact if_congr hlt rfl rfl

/-- The exponent at which a number has 53 bits before the point. -/
theorem spacing_eq_log {n d : ℕ} (hn : 0 < n) (hd : 0 < d) :
    spacing n d = Int.log 2 ((n : ℚ) / d) - 52 := by
  have hlt := lt_mul_powQuotient (b := 2) (by decide) hd n (2 ^ 52)
    ((Nat.log 2 n : ℤ) - Nat.log 2 d - 52)
  have hpow : ((2 ^ 52 : ℕ) : ℚ) * ((2 : ℕ) : ℚ) ^ ((Nat.log 2 n : ℤ) - Nat.log 2 d - 52) =
      ((2 : ℕ) : ℚ) ^ ((Nat.log 2 n : ℤ) - Nat.log 2 d) := by
    rw [Nat.cast_pow, ← zpow_natCast, ← zpow_add₀ (by decide)]
    congr 1
    omega
  rw [hpow] at hlt
  have hprecision : (precision : ℤ) - 1 = 52 := rfl
  simp only [spacing, Nat.log2_eq_log_two, hprecision]
  rw [log_quotient (by decide) hn hd]
  show (if n * _ < 2 ^ 52 * (d * _) then _ else _) = _
  rw [if_congr hlt rfl rfl]
  split <;> omega

/-! ## Nearest integers -/

theorem roundDiv_near_cast (n : ℕ) {d : ℕ} (hd : 0 < d) :
    |(n : ℚ) / d - roundDiv n d| ≤ 1 / 2 := by
  have hd' : (0 : ℚ) < d := Nat.cast_pos.2 hd
  obtain ⟨hlow, hhigh⟩ := roundDiv_near n d hd
  have hlow' : 2 * (n : ℚ) ≤ 2 * d * roundDiv n d + d := by exact_mod_cast hlow
  have hhigh' : 2 * (d : ℚ) * roundDiv n d ≤ 2 * n + d := by exact_mod_cast hhigh
  rw [abs_le, neg_le_sub_iff_le_add, sub_le_iff_le_add, div_le_iff₀ hd']
  constructor
  · rw [← sub_le_iff_le_add, le_div_iff₀ hd']
    linarith
  · linarith

/-- Of two equally near integers the even one is taken. -/
theorem even_roundDiv {n d : ℕ} (hd : 0 < d) (h : |(n : ℚ) / d - roundDiv n d| = 1 / 2) :
    Even (roundDiv n d) := by
  have hd' : (0 : ℚ) < d := Nat.cast_pos.2 hd
  have htie : 2 * n = 2 * d * roundDiv n d + d ∨ 2 * d * roundDiv n d = 2 * n + d := by
    rcases (abs_eq (by norm_num)).1 h with h | h
    · left
      have : 2 * (n : ℚ) = 2 * d * roundDiv n d + d := by
        rw [sub_eq_iff_eq_add, div_eq_iff hd'.ne'] at h
        linarith
      exact_mod_cast this
    · right
      have : 2 * (d : ℚ) * roundDiv n d = 2 * n + d := by
        rw [sub_eq_iff_eq_add, div_eq_iff hd'.ne'] at h
        linarith
      exact_mod_cast this
  have hdm : d * (n / d) + n % d = n := Nat.div_add_mod n d
  have hr : n % d < d := Nat.mod_lt n hd
  have e1 : 2 * d * (n / d) = 2 * (d * (n / d)) := Nat.mul_assoc 2 d (n / d)
  have e2 : 2 * d * (n / d + 1) = 2 * (d * (n / d)) + 2 * d := by
    rw [Nat.mul_add, e1, Nat.mul_one]
  rw [Nat.even_iff]
  simp only [roundDiv] at htie ⊢
  repeat' split at htie
  all_goals grind

/-- A distance in units of a grid. -/
theorem abs_div_sub {x m u : ℚ} (hu : 0 < u) : |x / u - m| = |x - m * u| / u := by
  rw [div_sub' hu.ne', abs_div, abs_of_pos hu, mul_comm u]

section

variable {b n d : ℕ} {e : ℤ} (hb : 0 < b) (hd : 0 < d)

include hb hd

/-- The rounded quotient is at most half a unit away. -/
theorem roundAt_near (n : ℕ) (e : ℤ) :
    2 * |(n : ℚ) / d - roundAt b n d e * (b : ℚ) ^ e| ≤ (b : ℚ) ^ e := by
  have hu : 0 < (b : ℚ) ^ e := zpow_pos (by positivity) e
  have h := roundDiv_near_cast (n * (powQuotient b e).2)
    (Nat.mul_pos hd (powQuotient_pos hb e).1)
  rw [scaled_quotient hb hd, abs_div_sub hu, div_le_div_iff₀ hu two_pos] at h
  rw [roundAt]
  linarith

/-- Where it is half a unit away it is even. -/
theorem even_roundAt
    (h : 2 * |(n : ℚ) / d - roundAt b n d e * (b : ℚ) ^ e| = (b : ℚ) ^ e) :
    Even (roundAt b n d e) := by
  have hu : 0 < (b : ℚ) ^ e := zpow_pos (by positivity) e
  show Even (roundDiv (n * (powQuotient b e).2) (d * (powQuotient b e).1))
  apply even_roundDiv (Nat.mul_pos hd (powQuotient_pos hb e).1)
  rw [scaled_quotient hb hd, abs_div_sub hu, div_eq_div_iff hu.ne' two_ne_zero]
  rw [roundAt] at h
  linarith

/-- Another multiple of the unit is at least half a unit away, and not nearer. -/
theorem roundAt_nearest {k : ℕ} (hk : k ≠ roundAt b n d e) :
    (b : ℚ) ^ e ≤ 2 * |(n : ℚ) / d - k * (b : ℚ) ^ e| := by
  have hu : 0 < (b : ℚ) ^ e := zpow_pos (by positivity) e
  have hnear := roundAt_near hb hd n e
  have hdiff : (1 : ℚ) ≤ |(k : ℚ) - roundAt b n d e| := by
    have : 1 ≤ |(k : ℤ) - roundAt b n d e| := Int.one_le_abs (by omega)
    exact_mod_cast this
  have hsplit : |(k : ℚ) - roundAt b n d e| * (b : ℚ) ^ e ≤
      |(n : ℚ) / d - roundAt b n d e * (b : ℚ) ^ e| + |(n : ℚ) / d - k * (b : ℚ) ^ e| := by
    rw [← abs_of_pos hu, ← abs_mul, abs_of_pos hu, sub_mul]
    have h := abs_sub_le (k * (b : ℚ) ^ e) ((n : ℚ) / d) (roundAt b n d e * (b : ℚ) ^ e)
    rw [abs_sub_comm _ ((n : ℚ) / d)] at h
    linarith
  nlinarith

/-- A multiple of the unit less than half a unit away is the rounded quotient. -/
theorem roundAt_eq {m : ℕ} (h : 2 * |(n : ℚ) / d - m * (b : ℚ) ^ e| < (b : ℚ) ^ e) :
    roundAt b n d e = m := by
  by_contra hne
  exact absurd (roundAt_nearest hb hd (Ne.symm hne)) (not_le.2 h)

/-- A bound of the quotient in units bounds the rounded quotient. -/
theorem le_roundAt {m : ℕ} (h : m * (b : ℚ) ^ e ≤ (n : ℚ) / d) : m ≤ roundAt b n d e := by
  have hu : 0 < (b : ℚ) ^ e := zpow_pos (by positivity) e
  have hnear := le_abs_self ((n : ℚ) / d - roundAt b n d e * (b : ℚ) ^ e)
  have hlt : (m : ℚ) < roundAt b n d e + 1 := by
    refine lt_of_mul_lt_mul_right ?_ hu.le
    linarith [roundAt_near hb hd n e]
  exact Nat.lt_succ_iff.1 (by exact_mod_cast hlt)

theorem roundAt_le {m : ℕ} (h : (n : ℚ) / d ≤ m * (b : ℚ) ^ e) : roundAt b n d e ≤ m := by
  have hu : 0 < (b : ℚ) ^ e := zpow_pos (by positivity) e
  have hnear := neg_abs_le ((n : ℚ) / d - roundAt b n d e * (b : ℚ) ^ e)
  have hlt : (roundAt b n d e : ℚ) < m + 1 := by
    refine lt_of_mul_lt_mul_right ?_ hu.le
    linarith [roundAt_near hb hd n e]
  exact Nat.lt_succ_iff.1 (by exact_mod_cast hlt)

end

/-! ## Significant digits -/

/-- The number that `p` significant digits stand for. -/
def Significant.value (p : ℕ) (s : Significant) : ℚ := s.digits * 10 ^ (s.exponent + 1 - p)

/-- There are `p` significant digits, the first of them not 0. -/
def Significant.IsFull (p : ℕ) (s : Significant) : Prop :=
  10 ^ (p - 1) ≤ s.digits ∧ s.digits < 10 ^ p

theorem ten_zpow_pos (k : ℤ) : (0 : ℚ) < 10 ^ k := zpow_pos (by decide) k

/-- Digits of a quotient from the grid that its logarithm gives. -/
theorem Significant.round_of_log {p n d : ℕ} {k : ℤ} (hn : 0 < n) (hd : 0 < d)
    (hlog : Int.log 10 ((n : ℚ) / d) = k) :
    Significant.round p n d =
      if roundAt 10 n d (k - (p - 1)) = 10 ^ p then ⟨10 ^ (p - 1), k + 1⟩
      else ⟨roundAt 10 n d (k - (p - 1)), k⟩ := by
  rw [Significant.round, if_neg hn.ne', leadingExponent_eq_log hn hd, hlog]
  rfl

theorem log_ten_eq {x : ℚ} {k : ℤ} (hlow : 10 ^ k ≤ x) (hhigh : x < 10 ^ (k + 1)) :
    Int.log 10 x = k := by
  have hx : 0 < x := (ten_zpow_pos k).trans_le hlow
  have h1 := (Int.zpow_le_iff_le_log (b := 10) (by decide) hx).1 (by exact_mod_cast hlow)
  have h2 := (Int.lt_zpow_iff_log_lt (b := 10) (by decide) hx).1 (by exact_mod_cast hhigh)
  omega

section

variable {p n d : ℕ} {s : Significant} (hp : 0 < p) (hs : s.IsFull p)

include hp hs

/-- A number of `p` digits lies between two powers of ten, a unit of the last digit below the
upper one. -/
theorem Significant.value_bounds :
    10 ^ s.exponent ≤ s.value p ∧
      s.value p + 10 ^ (s.exponent + 1 - p) ≤ 10 ^ (s.exponent + 1) := by
  obtain ⟨hlow, hhigh⟩ := hs
  have hu := ten_zpow_pos (s.exponent + 1 - p)
  have hlow' : (10 : ℚ) ^ (p - 1) ≤ s.digits := by exact_mod_cast hlow
  have hhigh' : (s.digits : ℚ) + 1 ≤ 10 ^ p := by exact_mod_cast hhigh
  constructor
  · calc (10 : ℚ) ^ s.exponent = 10 ^ (p - 1) * 10 ^ (s.exponent + 1 - p) := by
          rw [pow_mul_zpow (by decide)]; congr 1; omega
      _ ≤ s.value p := mul_le_mul_of_nonneg_right hlow' hu.le
  · calc s.value p + 10 ^ (s.exponent + 1 - p)
        = (s.digits + 1) * 10 ^ (s.exponent + 1 - p) := by rw [value, add_mul, one_mul]
      _ ≤ 10 ^ p * 10 ^ (s.exponent + 1 - p) := mul_le_mul_of_nonneg_right hhigh' hu.le
      _ = 10 ^ (s.exponent + 1) := by rw [pow_mul_zpow (by decide)]; congr 1; omega

variable (hnear : 2 * 10 ^ p * |(n : ℚ) / d - s.value p| < s.value p)

include hnear

/-- A quotient near to a number of `p` digits is less than half a unit of the last digit away. -/
theorem Significant.near_unit :
    2 * |(n : ℚ) / d - s.value p| < 10 ^ (s.exponent + 1 - p) ∧ 0 < n := by
  have hu := ten_zpow_pos (s.exponent + 1 - p)
  have hpow : (1 : ℚ) ≤ 10 ^ p := one_le_pow₀ (by norm_num)
  have hbounds := s.value_bounds hp hs
  have hvalue : s.value p < 10 ^ p * 10 ^ (s.exponent + 1 - p) := by
    rw [pow_mul_zpow (by decide), show s.exponent + 1 - p + (p : ℕ) = s.exponent + 1 by omega]
    linarith
  constructor
  · refine lt_of_mul_lt_mul_left ?_ (zero_le_one.trans hpow)
    linarith
  · -- at 0 the difference would be the number itself
    refine Nat.pos_of_ne_zero fun hn => ?_
    have hpos := (ten_zpow_pos s.exponent).trans_le hbounds.1
    rw [hn, Nat.cast_zero, zero_div, zero_sub, abs_neg, abs_of_pos hpos] at hnear
    nlinarith

/-- A quotient below `10 ^ exponent` and less than half a unit away from a number that is not
below it: the number is that power. -/
theorem Significant.eq_of_lt_power (hx : (n : ℚ) / d < 10 ^ s.exponent) :
    s.digits = 10 ^ (p - 1) ∧ s.value p = 10 ^ s.exponent := by
  have hu := ten_zpow_pos (s.exponent + 1 - p)
  have hpower : (10 : ℚ) ^ (p - 1) * 10 ^ (s.exponent + 1 - p) = 10 ^ s.exponent := by
    rw [pow_mul_zpow (by decide)]
    congr 1
    omega
  have hbelow := neg_abs_le ((n : ℚ) / d - s.value p)
  have hunit := (s.near_unit hp hs hnear).1
  have hm : s.digits = 10 ^ (p - 1) := by
    refine le_antisymm (Nat.lt_succ_iff.1 ?_) hs.1
    have hlt : (s.digits : ℚ) < 10 ^ (p - 1) + 1 := by
      refine lt_of_mul_lt_mul_right (?_ : s.value p < _) hu.le
      rw [add_mul, one_mul, hpower]
      linarith
    exact_mod_cast hlt
  refine ⟨hm, ?_⟩
  rw [value, hm, ← hpower]
  push_cast
  rfl

/-- A quotient that is near enough to a number of `p` digits rounds to that number. -/
theorem Significant.round_eq (hd : 0 < d) : Significant.round p n d = s := by
  obtain ⟨hunit, hn⟩ := s.near_unit hp hs hnear
  obtain ⟨hlow, hhigh⟩ := s.value_bounds hp hs
  have hu := ten_zpow_pos (s.exponent + 1 - p)
  obtain ⟨hbelow, habove⟩ := abs_le.1 (le_refl |(n : ℚ) / d - s.value p|)
  rcases le_or_gt (10 ^ s.exponent) ((n : ℚ) / d) with hx | hx
  · -- the first digit stands where that of the number stands
    have hlog : Int.log 10 ((n : ℚ) / d) = s.exponent := log_ten_eq hx (by linarith)
    have hround : roundAt 10 n d (s.exponent - (p - 1)) = s.digits := by
      apply roundAt_eq (by decide) hd
      rwa [Nat.cast_ofNat, show s.exponent - ((p : ℤ) - 1) = s.exponent + 1 - p by omega]
    rw [round_of_log hn hd hlog, hround, if_neg hs.2.ne]
  · -- the number is a power of ten, and the first digit stands one place later
    obtain ⟨hm, hvalue⟩ := s.eq_of_lt_power hp hs hnear hx
    have hu' := ten_zpow_pos (s.exponent - p)
    have hpower : (10 : ℚ) ^ p * 10 ^ (s.exponent - p) = 10 ^ s.exponent := by
      rw [← zpow_natCast, ← zpow_add₀ (by decide), add_sub_cancel]
    rw [hvalue] at hnear hbelow habove
    have htenth : (10 : ℚ) ^ s.exponent = 10 * 10 ^ (s.exponent - 1) := by
      rw [mul_comm, ← zpow_add_one₀ (by decide), sub_add_cancel]
    have hpow : (1 : ℚ) ≤ 10 ^ p := one_le_pow₀ (by norm_num)
    have hdiff : 2 * |(n : ℚ) / d - 10 ^ s.exponent| < 10 ^ (s.exponent - p) := by
      refine lt_of_mul_lt_mul_left (?_ : (10 : ℚ) ^ p * _ < 10 ^ p * _) (zero_le_one.trans hpow)
      linarith
    have hlog : Int.log 10 ((n : ℚ) / d) = s.exponent - 1 := by
      have hsmall : (10 : ℚ) ^ (s.exponent - p) ≤ 10 ^ s.exponent :=
        zpow_le_zpow_right₀ (by norm_num) (by omega)
      refine log_ten_eq ?_ (by rwa [sub_add_cancel])
      linarith
    have hround : roundAt 10 n d (s.exponent - 1 - (p - 1)) = 10 ^ p := by
      apply roundAt_eq (by decide) hd
      rwa [Nat.cast_ofNat, show s.exponent - 1 - ((p : ℤ) - 1) = s.exponent - p by omega,
        Nat.cast_pow, Nat.cast_ofNat, hpower]
    rw [round_of_log hn hd hlog, hround, if_pos rfl, sub_add_cancel, ← hm]

end

/-! ## Binary numbers -/

namespace Binary

/-- The number. -/
def value (b : Binary) : ℚ := b.significand * 2 ^ b.exponent

theorem toQuotient_value (b : Binary) : (b.toQuotient.1 : ℚ) / b.toQuotient.2 = b.value := by
  have hq := (powQuotient_pos (b := 2) (by decide) b.exponent).2
  show ((b.significand * (powQuotient 2 b.exponent).1 : ℕ) : ℚ) / (powQuotient 2 b.exponent).2 = _
  rw [Nat.cast_mul, powQuotient_value (by decide), ← mul_assoc,
    mul_div_cancel_right₀ _ (Nat.cast_ne_zero.2 hq.ne')]
  rfl

theorem toQuotient_pos (b : Binary) : 0 < b.toQuotient.2 :=
  (powQuotient_pos (by decide) b.exponent).2

/-- The number has 53 significant bits and is the nearest of all such numbers; of two that are
equally near it is the even one. -/
structure IsNearest (b : Binary) (x : ℚ) : Prop where
  full : 2 ^ 52 ≤ b.significand ∧ b.significand < 2 ^ 53
  near : 2 * |x - b.value| ≤ 2 ^ b.exponent
  nearest : ∀ c : Binary, c.significand < 2 ^ 53 → |x - b.value| ≤ |x - c.value|
  even_of_tie : ∀ c : Binary, c.significand < 2 ^ 53 → c.value ≠ b.value →
    |x - b.value| = |x - c.value| → Even b.significand

/-- The relative distance to the nearest binary number. -/
theorem IsNearest.relative {b : Binary} {x : ℚ} (h : b.IsNearest x) :
    (2 ^ 53 - 1) * |x - b.value| ≤ x := by
  have hunit : (0 : ℚ) < 2 ^ b.exponent := zpow_pos (by decide) _
  have hfull : (2 ^ 52 : ℚ) ≤ b.significand := by exact_mod_cast h.full.1
  have hvalue : 2 ^ 52 * 2 ^ b.exponent ≤ b.value := mul_le_mul_of_nonneg_right hfull hunit.le
  have hnear := h.near
  have hdiff := neg_abs_le (x - b.value)
  linarith

theorem two_zpow_pos (e : ℤ) : (0 : ℚ) < 2 ^ e := zpow_pos (by decide) e

/-- Numbers with a coarser spacing are on the grid. -/
theorem exists_value_eq {c : Binary} {e : ℤ} (h : e ≤ c.exponent) :
    ∃ k : ℕ, c.value = k * 2 ^ e := by
  obtain ⟨i, hi⟩ := Int.eq_ofNat_of_zero_le (sub_nonneg.2 h)
  refine ⟨c.significand * 2 ^ i, ?_⟩
  rw [value, Nat.cast_mul, Nat.cast_pow, mul_assoc, Nat.cast_ofNat, ← zpow_natCast,
    ← zpow_add₀ (by decide), ← hi, sub_add_cancel]

/-- Numbers with a finer spacing are below all full significands of the grid. -/
theorem value_lt {c : Binary} {e : ℤ} (hc : c.significand < 2 ^ 53) (h : c.exponent < e) :
    c.value < 2 ^ 52 * 2 ^ e := by
  have hlt : (c.significand : ℚ) < 2 ^ 53 := by exact_mod_cast hc
  calc c.value < 2 ^ 53 * 2 ^ c.exponent := mul_lt_mul_of_pos_right hlt (two_zpow_pos _)
    _ ≤ 2 ^ 53 * 2 ^ (e - 1) :=
        mul_le_mul_of_nonneg_left (zpow_le_zpow_right₀ (by norm_num) (by omega)) (by norm_num)
    _ = 2 ^ 52 * 2 ^ e := by
        rw [zpow_sub_one₀ (by decide)]
        ring

/-- The least normal number. -/
def leastNormal : Binary := ⟨2 ^ 52, leastExponent⟩

theorem leastNormal_value : leastNormal.value = 2 ^ (-1022 : ℤ) := by
  rw [value, leastNormal, Nat.cast_pow, Nat.cast_ofNat, pow_mul_zpow (by decide)]
  rfl

/-- The greatest number. -/
def greatest : Binary := ⟨2 ^ 53 - 1, greatestExponent⟩

section

variable {n d : ℕ} (hd : 0 < d) {e : ℤ}

include hd

/-- The quotient rounded on the grid on which it has 53 bits is the nearest number, also when it
is written with the next exponent. -/
theorem isNearest_of_grid (hlow : 2 ^ 52 * 2 ^ e ≤ (n : ℚ) / d) {b : Binary}
    (hfull : 2 ^ 52 ≤ b.significand ∧ b.significand < 2 ^ 53)
    (hvalue : b.value = roundAt 2 n d e * 2 ^ e) (hexponent : e ≤ b.exponent)
    (heven : Even (roundAt 2 n d e) → Even b.significand) : b.IsNearest ((n : ℚ) / d) := by
  have hnear : 2 * |(n : ℚ) / d - b.value| ≤ 2 ^ e := by
    rw [hvalue]
    exact_mod_cast roundAt_near (by decide) hd n e
  have hgrid : ∀ k : ℕ, k ≠ roundAt 2 n d e → (2 : ℚ) ^ e ≤ 2 * |(n : ℚ) / d - k * 2 ^ e| :=
    fun k hk => by exact_mod_cast roundAt_nearest (by decide) hd hk
  -- a number with a finer spacing is farther away than the least full one of the grid
  have hfiner : ∀ c : Binary, c.significand < 2 ^ 53 → c.exponent < e →
      |(n : ℚ) / d - b.value| < |(n : ℚ) / d - c.value| := by
    intro c hc he
    have hlt := value_lt hc he
    have hleast : |(n : ℚ) / d - b.value| ≤ (n : ℚ) / d - 2 ^ 52 * 2 ^ e := by
      by_cases hm : 2 ^ 52 = roundAt 2 n d e
      · rw [hvalue, ← hm, Nat.cast_pow, Nat.cast_ofNat, abs_of_nonneg (sub_nonneg.2 hlow)]
      · have h := hgrid _ hm
        rw [Nat.cast_pow, Nat.cast_ofNat, abs_of_nonneg (sub_nonneg.2 hlow)] at h
        linarith
    exact hleast.trans_lt ((sub_lt_sub_left hlt _).trans_le (le_abs_self _))
  refine ⟨hfull, hnear.trans (zpow_le_zpow_right₀ (by norm_num) hexponent), fun c hc => ?_,
    fun c hc hne htie => ?_⟩
  · rcases le_or_gt e c.exponent with he | he
    · obtain ⟨k, hk⟩ := exists_value_eq he
      by_cases hm : k = roundAt 2 n d e
      · rw [hvalue, hk, hm]
      · rw [hk]
        linarith [hgrid k hm]
    · exact (hfiner c hc he).le
  · rcases le_or_gt e c.exponent with he | he
    · obtain ⟨k, hk⟩ := exists_value_eq he
      have hm : k ≠ roundAt 2 n d e := by
        rintro rfl
        exact hne (hk.trans hvalue.symm)
      refine heven (even_roundAt (by decide) hd ?_)
      rw [Nat.cast_ofNat, ← hvalue]
      rw [hk] at htie
      linarith [hgrid k hm]
    · exact absurd htie (hfiner c hc he).ne

/-- Between the least normal number and the greatest one, the grid on which a quotient has 53 bits
is one of those that there are. -/
theorem spacing_bounds (hlow : leastNormal.value ≤ (n : ℚ) / d)
    (hhigh : (n : ℚ) / d ≤ greatest.value) :
    0 < n ∧ leastExponent ≤ spacing n d ∧ spacing n d ≤ greatestExponent ∧
      2 ^ 52 * 2 ^ spacing n d ≤ (n : ℚ) / d ∧ (n : ℚ) / d < 2 ^ 53 * 2 ^ spacing n d := by
  have hleast : leastNormal.value = ((2 : ℕ) : ℚ) ^ (-1022 : ℤ) := leastNormal_value
  have hgreatest : greatest.value < ((2 : ℕ) : ℚ) ^ (1024 : ℤ) := by
    have hlt : ((2 ^ 53 - 1 : ℕ) : ℚ) < 2 ^ 53 := by norm_num
    calc greatest.value < 2 ^ 53 * 2 ^ greatestExponent :=
          mul_lt_mul_of_pos_right hlt (two_zpow_pos _)
      _ = 2 ^ (1024 : ℤ) := pow_mul_zpow (by decide) _ _
  have hx : (0 : ℚ) < (n : ℚ) / d := (two_zpow_pos _).trans_le (hleast ▸ hlow)
  have hn : 0 < n := by
    refine Nat.pos_of_ne_zero fun hn => ?_
    rw [hn, Nat.cast_zero, zero_div] at hx
    exact lt_irrefl _ hx
  have hfirst := (Int.zpow_le_iff_le_log (b := 2) (by decide) hx).1 (hleast ▸ hlow)
  have hlast := (Int.lt_zpow_iff_log_lt (b := 2) (by decide) hx).1 (hhigh.trans_lt hgreatest)
  have hlog := Int.zpow_log_le_self (b := 2) (by decide) hx
  have hlog' := Int.lt_zpow_succ_log_self (b := 2) (by decide) ((n : ℚ) / d)
  rw [spacing_eq_log hn hd]
  refine ⟨hn, ?_, ?_, ?_, ?_⟩
  · rw [leastExponent]
    omega
  · rw [greatestExponent]
    omega
  · rwa [pow_mul_zpow (by decide), Nat.cast_ofNat, sub_add_cancel]
  · rw [pow_mul_zpow (by decide), sub_add]
    exact hlog'

omit hd in
/-- A quotient is rounded on the grid on which it has 53 bits, or on that of the smallest numbers;
a carry is written with the next exponent. -/
theorem nearest?_of_pos (hn : 0 < n) : nearest? n d =
    let e := max (spacing n d) leastExponent
    let b : Binary := if roundAt 2 n d e = 2 ^ 53 then ⟨2 ^ 52, e + 1⟩ else ⟨roundAt 2 n d e, e⟩
    if greatestExponent < b.exponent then none else some b := by
  rw [nearest?, if_neg hn.ne']
  rfl

/-- Between the least normal number and the greatest number there is a nearest one. -/
theorem exists_nearest? (hlow : leastNormal.value ≤ (n : ℚ) / d)
    (hhigh : (n : ℚ) / d ≤ greatest.value) :
    ∃ b, nearest? n d = some b ∧ b.IsNearest ((n : ℚ) / d) := by
  obtain ⟨hn, hleast, hgreatest, hfirst, hlast⟩ := spacing_bounds hd hlow hhigh
  have hm : 2 ^ 52 ≤ roundAt 2 n d (spacing n d) :=
    le_roundAt (by decide) hd (by exact_mod_cast hfirst)
  have hm' : roundAt 2 n d (spacing n d) ≤ 2 ^ 53 :=
    roundAt_le (by decide) hd (by exact_mod_cast hlast.le)
  rw [nearest?_of_pos hn, max_eq_left hleast]
  dsimp only
  by_cases hcarry : roundAt 2 n d (spacing n d) = 2 ^ 53
  · -- the greatest number is not rounded up
    have hroom : spacing n d < greatestExponent := by
      refine lt_of_le_of_ne hgreatest fun he => ?_
      have h : roundAt 2 n d (spacing n d) ≤ 2 ^ 53 - 1 := by
        refine roundAt_le (by decide) hd ?_
        rw [he]
        exact_mod_cast hhigh
      omega
    rw [if_pos hcarry]
    refine ⟨⟨2 ^ 52, spacing n d + 1⟩, if_neg (by simp only; omega),
      isNearest_of_grid hd hfirst ⟨le_rfl, Nat.pow_lt_pow_succ one_lt_two⟩ ?_ (by simp)
        fun _ => even_two.pow_of_ne_zero (by decide)⟩
    rw [value, hcarry, zpow_add_one₀ (by decide)]
    push_cast
    ring
  · rw [if_neg hcarry]
    exact ⟨⟨roundAt 2 n d (spacing n d), spacing n d⟩, if_neg (by simpa using hgreatest),
      isNearest_of_grid hd hfirst ⟨hm, lt_of_le_of_ne hm' hcarry⟩ rfl le_rfl id⟩

/-- Rounding carries into a 54th bit from half a unit below the power of two on: the greatest
significand is odd, so a tie goes up. -/
theorem roundAt_eq_carry_iff (hlast : (n : ℚ) / d < 2 ^ 53 * 2 ^ e) :
    roundAt 2 n d e = 2 ^ 53 ↔ (2 ^ 53 - 1 / 2) * 2 ^ e ≤ (n : ℚ) / d := by
  have hu := two_zpow_pos e
  have hnear := roundAt_near (b := 2) (by decide) hd n e
  rw [Nat.cast_ofNat] at hnear
  constructor
  · intro hm
    rw [hm, Nat.cast_pow, Nat.cast_ofNat] at hnear
    linarith [neg_abs_le ((n : ℚ) / d - 2 ^ 53 * 2 ^ e)]
  · intro hhalf
    have hle : roundAt 2 n d e ≤ 2 ^ 53 := roundAt_le (by decide) hd (by exact_mod_cast hlast.le)
    have hge : 2 ^ 53 - 1 ≤ roundAt 2 n d e := by
      refine le_roundAt (by decide) hd ?_
      push_cast
      linarith
    by_contra hne
    have hm : roundAt 2 n d e = 2 ^ 53 - 1 := by omega
    have heven : Even (roundAt 2 n d e) := by
      refine even_roundAt (by decide) hd (le_antisymm (by exact_mod_cast hnear) ?_)
      rw [hm]
      push_cast
      linarith [le_abs_self ((n : ℚ) / d - (2 ^ 53 - 1) * 2 ^ e)]
    rw [hm] at heven
    exact absurd heven (by decide)

omit hd in
/-- There is no nearest number where the exponent is too high, or gets so by a carry. -/
theorem nearest?_eq_none_iff_exponent (hn : 0 < n) :
    nearest? n d = none ↔ greatestExponent < spacing n d ∨
      spacing n d = greatestExponent ∧ roundAt 2 n d (spacing n d) = 2 ^ 53 := by
  have hrange : leastExponent + 1 < greatestExponent := by decide
  rw [nearest?_of_pos hn]
  simp only [apply_ite exponent, ite_eq_left_iff, reduceCtorEq, imp_false, not_not]
  rcases le_total (spacing n d) leastExponent with h | h
  · rw [max_eq_right h]
    split <;> omega
  · rw [max_eq_left h]
    split <;> omega

/-- From half a unit above the greatest number on, numbers are too large for any. -/
theorem nearest?_eq_none_iff :
    nearest? n d = none ↔ (2 ^ 53 - 1 / 2) * 2 ^ greatestExponent ≤ (n : ℚ) / d := by
  have hu := two_zpow_pos greatestExponent
  rcases Nat.eq_zero_or_pos n with rfl | hn
  · rw [nearest?, if_pos rfl, Nat.cast_zero, zero_div]
    exact iff_of_false (by simp) (not_le.2 (mul_pos (by norm_num) hu))
  have hx : (0 : ℚ) < (n : ℚ) / d := by positivity
  have hfirst := Int.zpow_log_le_self (b := 2) (by decide) hx
  have hlast := Int.lt_zpow_succ_log_self (b := 2) (by decide) ((n : ℚ) / d)
  rw [show Int.log 2 ((n : ℚ) / d) = spacing n d + 52 by rw [spacing_eq_log hn hd]; omega,
    Nat.cast_ofNat] at hfirst hlast
  rw [nearest?_eq_none_iff_exponent hn]
  rcases lt_trichotomy (spacing n d) greatestExponent with h | h | h
  · have hle : (2 : ℚ) ^ (spacing n d + 52 + 1) ≤ 2 ^ 52 * 2 ^ greatestExponent := by
      rw [pow_mul_zpow (by decide)]
      exact zpow_le_zpow_right₀ (by norm_num) (by omega)
    exact iff_of_false (by omega) (not_le.2 (by linarith))
  · have hlast' : (n : ℚ) / d < 2 ^ 53 * 2 ^ spacing n d := by
      rw [pow_mul_zpow (by decide), Nat.cast_ofNat]
      rwa [add_assoc, show (52 + 1 : ℤ) = 53 from rfl] at hlast
    rw [← h, ← roundAt_eq_carry_iff hd hlast']
    simp
  · have hle : (2 : ℚ) ^ 53 * 2 ^ greatestExponent ≤ 2 ^ (spacing n d + 52) := by
      rw [pow_mul_zpow (by decide)]
      exact zpow_le_zpow_right₀ (by norm_num) (by omega)
    exact iff_of_true (.inl h) (by linarith)

end

end Binary

end GaussianIntegrals.Number
