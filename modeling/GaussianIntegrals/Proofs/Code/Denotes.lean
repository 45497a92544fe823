/-
  Texts and the values they denote. `Denotes lookup l s x` says that the characters `s` scan to
  tokens that read, at a level of the grammar, as arithmetic with the value `x`. There is one
  lemma for each way in which texts are put together, so that the text of an expression or of
  a weighted sum is followed as it is made.
-/
import GaussianIntegrals.Proofs.Code.Reader

namespace GaussianIntegrals.Code

variable {lookup : Reference → Option ℚ}

/-- The text denotes the value. -/
def Denotes (lookup : Reference → Option ℚ) (l : Level) (s : List Char) (x : ℚ) : Prop :=
  ∃ ts a, Scans s ts ∧ Reads l ts a ∧ a.value lookup = some x

/-- A sign applies to a whole power, and a numeral is exact. -/
example : (read (tokens "-x**2 + 2*(y(i,1) - 1.5e-1)")).bind (Arith.value fun _ => some 3) =
    some (-33 / 10) := by
  cbv

namespace Denotes

/-! ## Levels -/

theorem factor {s : List Char} {x : ℚ} (h : Denotes lookup .primary s x) :
    Denotes lookup .factor s x := by
  obtain ⟨ts, a, hs, hr, ha⟩ := h
  exact ⟨ts, a, hs, .primary hr, ha⟩

theorem term {s : List Char} {x : ℚ} (h : Denotes lookup .factor s x) :
    Denotes lookup .term s x := by
  obtain ⟨ts, a, hs, hr, ha⟩ := h
  exact ⟨ts, a, hs, .factor hr, ha⟩

theorem sum {s : List Char} {x : ℚ} (h : Denotes lookup .term s x) :
    Denotes lookup .sum s x := by
  obtain ⟨ts, a, hs, hr, ha⟩ := h
  exact ⟨ts, a, hs, .term hr, ha⟩

/-! ## Primaries and powers -/

theorem parenthesized {s : List Char} {x : ℚ} (h : Denotes lookup .sum s x) :
    Denotes lookup .primary ('(' :: (s ++ [')'])) x := by
  obtain ⟨ts, a, hs, hr, ha⟩ := h
  exact ⟨_, a, hs.parenthesized, .parentheses hr, ha⟩

theorem numeral {w : List Char} {v : ℚ} (h : numeral? w = some v) :
    Denotes lookup .primary w v :=
  ⟨_, .number v, Scans.numeral h, .number (isName_of_numeral h) h, rfl⟩

theorem reference {r : Reference} {x : ℚ} (hr : r.WellFormed) (hx : lookup r = some x) :
    Denotes lookup .primary r.chars x :=
  ⟨_, .reference r, hr.scans, .reference hr.name_isName, hx⟩

theorem power {s t : List Char} {x : ℚ} {k : ℤ} (hs : Denotes lookup .primary s x)
    (ht : Denotes lookup .primary t k) (h0 : x = 0 → 0 ≤ k) :
    Denotes lookup .factor (s ++ '*' :: '*' :: t) (x ^ k) := by
  obtain ⟨ts, a, hs, hr, ha⟩ := hs
  obtain ⟨us, b, ht, hu, hb⟩ := ht
  refine ⟨_, .power a b, hs.power ht, .power hr hu, ?_⟩
  have hk : (k : ℚ).den = 1 ∧ (x = 0 → 0 ≤ (k : ℚ)) :=
    ⟨Rat.den_intCast k, fun hx => by exact_mod_cast h0 hx⟩
  simp only [Arith.value, ha, hb, Option.bind_eq_bind, Option.bind_some]
  rw [if_pos hk, Rat.num_intCast]

/-! ## Terms -/

theorem neg {s : List Char} {x : ℚ} (h : Denotes lookup .term s x) :
    Denotes lookup .term ('-' :: s) (-x) := by
  obtain ⟨ts, a, hs, hr, ha⟩ := h
  obtain ⟨b, hb, hbv⟩ := hr.neg_term
  exact ⟨_, b, hs.negated, hb, by rw [hbv lookup x ha, neg_one_mul]⟩

theorem pos {s : List Char} {x : ℚ} (h : Denotes lookup .term s x) :
    Denotes lookup .term ('+' :: s) x := by
  obtain ⟨ts, a, hs, hr, ha⟩ := h
  obtain ⟨b, hb, hbv⟩ := hr.pos_term
  exact ⟨_, b, hs.prefixed (by decide) (by decide), hb, by rw [hbv lookup x ha, one_mul]⟩

theorem mul {s t : List Char} {x y : ℚ} (hs : Denotes lookup .term s x)
    (ht : Denotes lookup .term t y) : Denotes lookup .term (s ++ '*' :: t) (x * y) := by
  obtain ⟨ts, a, hs, hr, ha⟩ := hs
  obtain ⟨us, b, ht, hu, hb⟩ := ht
  obtain ⟨c, hc, hcv⟩ := hr.mul_term hu
  exact ⟨_, c, hs.times ht, hc, hcv lookup x y ha hb⟩

/-! ## Sums -/

theorem add {s t : List Char} {x y : ℚ} (hs : Denotes lookup .sum s x)
    (ht : Denotes lookup .term t y) :
    Denotes lookup .sum (s ++ [' ', '+', ' '] ++ t) (x + y) := by
  obtain ⟨ts, a, hs, hr, ha⟩ := hs
  obtain ⟨us, b, ht, hu, hb⟩ := ht
  have hscan : Scans (s ++ [' ', '+', ' '] ++ t) (ts ++ .plus :: us) := by
    simpa [symbolToken] using hs.spaced (o := '+') (by decide) (by decide) ht
  exact ⟨_, .add a b, hscan, .plus hr hu, by simp [Arith.value, ha, hb]⟩

theorem sub {s t : List Char} {x y : ℚ} (hs : Denotes lookup .sum s x)
    (ht : Denotes lookup .term t y) :
    Denotes lookup .sum (s ++ [' ', '-', ' '] ++ t) (x - y) := by
  obtain ⟨ts, a, hs, hr, ha⟩ := hs
  obtain ⟨us, b, ht, hu, hb⟩ := ht
  have hscan : Scans (s ++ [' ', '-', ' '] ++ t) (ts ++ .minus :: us) := by
    simpa [symbolToken] using hs.spaced (o := '-') (by decide) (by decide) ht
  exact ⟨_, .sub a b, hscan, .minus hr hu, by simp [Arith.value, ha, hb]⟩

end Denotes

/-! ## Terms that may give up a leading minus sign -/

/-- The text is a term, and where it begins with a minus sign, what is left of it without the
sign is a term of the opposite value. -/
structure DenotesTerm (lookup : Reference → Option ℚ) (s : List Char) (x : ℚ) : Prop where
  term : Denotes lookup .term s x
  stripped : ∀ r, s = '-' :: r → Denotes lookup .term r (-x)

namespace DenotesTerm

/-- The text does not begin with a minus sign. -/
theorem of_unsigned {s : List Char} {x : ℚ} (h : Denotes lookup .term s x)
    (hs : s.head? ≠ some '-') : DenotesTerm lookup s x := by
  refine ⟨h, fun r hr => absurd ?_ hs⟩
  rw [hr, List.head?_cons]

theorem neg {s : List Char} {x : ℚ} (h : Denotes lookup .term s x) :
    DenotesTerm lookup ('-' :: s) (-x) := by
  refine ⟨h.neg, fun r hr => ?_⟩
  injection hr with _ hr
  rw [← hr, neg_neg]
  exact h

theorem mul {s t : List Char} {x y : ℚ} (hs : DenotesTerm lookup s x)
    (ht : Denotes lookup .term t y) : DenotesTerm lookup (s ++ '*' :: t) (x * y) := by
  refine ⟨hs.term.mul ht, fun r hr => ?_⟩
  cases s with
  | nil =>
    rw [List.nil_append] at hr
    injection hr with hc _
    exact absurd hc (by decide)
  | cons c cs =>
    rw [List.cons_append] at hr
    injection hr with hc hcs
    rw [← hcs, ← neg_mul]
    exact (hs.stripped cs (by rw [hc])).mul ht

theorem parenthesized {s : List Char} {x : ℚ} (h : Denotes lookup .sum s x) :
    DenotesTerm lookup ('(' :: (s ++ [')'])) x :=
  of_unsigned h.parenthesized.factor.term (by simp)

theorem reference {r : Reference} {x : ℚ} (hr : r.WellFormed) (hx : lookup r = some x) :
    DenotesTerm lookup r.chars x := by
  refine of_unsigned (Denotes.reference hr hx).factor.term fun h => ?_
  obtain ⟨hne, hall⟩ := hr.name_isWord
  obtain ⟨c, cs, hname⟩ := List.exists_cons_of_ne_nil hne
  have hc : isWordChar c = true := hall c (by rw [hname]; exact List.mem_cons_self)
  have hhead : r.chars.head? = some c := by
    unfold Reference.chars
    split <;> rw [hname] <;> rfl
  rw [hhead] at h
  injection h with h
  rw [h] at hc
  exact absurd hc (by decide)

/-- A numeral with a minus sign in front of it or none. -/
theorem decimal {s : List Char} {v : ℚ} (h : decimal? s = some v) : DenotesTerm lookup s v := by
  unfold decimal? at h
  split at h
  · next w =>
    rw [Option.map_eq_some_iff] at h
    obtain ⟨u, hu, rfl⟩ := h
    exact neg (Denotes.numeral hu).factor.term
  · next hs =>
    refine of_unsigned (Denotes.numeral h).factor.term fun hhead => ?_
    obtain ⟨c, rfl⟩ := List.head?_eq_some_iff.1 hhead
    exact hs c rfl

end DenotesTerm

end GaussianIntegrals.Code
