/-
  The texts of the closed forms of the Boys functions and the expression that is evaluated. Read
  as a formula, in short or in full, the text of any closed form whose coefficients have exact
  literals has the value of the closed form, at every argument but 0 and for all values of its
  three functions (`exists_render`). The two texts differ in unit coefficients, which may be left
  out, and in the empty tail, which is 0.

  There is a text as long as `4 ^ n` has one, which is up to the order 7142; beyond, both texts
  fail (`render_error`).
-/
import GaussianIntegrals.Proofs.BoysRemainder
import GaussianIntegrals.Proofs.Code.Formula
import Mathlib.Analysis.SpecialFunctions.Pow.Real

namespace GaussianIntegrals.Boys

open GaussianIntegrals.Number GaussianIntegrals.Code

/-! ## Values -/

open Classical in
/-- The quantities in complex arithmetic at `t`, where `p`, `g` and `e` stand for the values of
`√π`, `erf √t` and `exp (-t)`. -/
noncomputable def complexQuantities (t p g e : ℂ) : Quantities ℂ where
  zero := 0
  half := 1 / 2
  add x y := x + y
  sub x y := x - y
  mul x y := x * y
  ofRat v := .ok v
  power k := if t = 0 ∧ k < 0 then .error .zeroDivision else .ok (t ^ k)
  exp := e
  erfTerm d n :=
    if t = 0 then .error .zeroDivision else .ok (p / (d * t ^ ((n : ℂ) + 1 / 2)) * g)
  gammaTerm n i x := x / halfRising n (i + 1)

/-- The value of a closed form at `t`. -/
noncomputable def ClosedForm.complexValue (f : ClosedForm) (t p g e : ℂ) : ℂ :=
  f.scale * (p / (4 ^ f.order * t ^ ((f.order : ℂ) + 1 / 2)) * g -
    e * (f.tail.zipIdx.map fun c => (c.1 : ℂ) * t ^ (-(c.2 + 1 : ℤ))).sum)

/-- The same value at a positive `t`, where the values of the three functions are real. -/
noncomputable def ClosedForm.realValue (f : ClosedForm) (t p g e : ℝ) : ℝ :=
  f.scale * (p / (4 ^ f.order * t ^ ((f.order : ℝ) + 1 / 2)) * g -
    e * (f.tail.zipIdx.map fun c => (c.1 : ℝ) * t ^ (-(c.2 + 1 : ℤ))).sum)

theorem ClosedForm.complexValue_ofReal (f : ClosedForm) {t : ℝ} (ht : 0 < t) (p g e : ℝ) :
    f.complexValue t p g e = f.realValue t p g e := by
  have hpower : ((t ^ ((f.order : ℝ) + 1 / 2) : ℝ) : ℂ) = (t : ℂ) ^ ((f.order : ℂ) + 1 / 2) := by
    rw [Complex.ofReal_cpow ht.le]
    push_cast
    rfl
  have hsum : (((f.tail.zipIdx.map fun c => (c.1 : ℝ) * t ^ (-(c.2 + 1 : ℤ))).sum : ℝ) : ℂ) =
      (f.tail.zipIdx.map fun c => (c.1 : ℂ) * (t : ℂ) ^ (-(c.2 + 1 : ℤ))).sum := by
    induction f.tail.zipIdx with
    | nil => simp
    | cons c cs ih =>
      rw [List.map_cons, List.sum_cons, Complex.ofReal_add, ih, List.map_cons, List.sum_cons]
      push_cast
      rfl
  rw [complexValue, realValue, ← hpower, ← hsum]
  push_cast
  rfl

/-- The values of the names in the texts. -/
def nameValues (t p g e : ℂ) (w : List Char) : Option ℂ :=
  [("XX".toList, t), ("sqrt_pi".toList, p), ("erf_XX".toList, g), ("exp_XX".toList, e)].lookup w

section

variable {t : ℂ} (ht : t ≠ 0) (p g e : ℂ)

include ht

theorem inField_complex : (complexQuantities t p g e).InField t where
  zero := rfl
  add _ _ := rfl
  sub _ _ := rfl
  mul _ _ := rfl
  ofRat _ := rfl
  power _ := if_neg fun h => ht h.1

/-- The expression that is evaluated. -/
theorem valueIn_complex (f : ClosedForm) :
    f.valueIn (complexQuantities t p g e) = .ok (f.complexValue t p g e) := by
  have hpower : ((f.erfDenominator : ℚ) : ℂ) = 4 ^ f.order := by
    have h : f.erfDenominator = (4 : ℚ) ^ f.order := rfl
    rw [h]
    push_cast
    rfl
  have hlead : (complexQuantities t p g e).erfTerm ((f.erfDenominator : ℚ) : ℂ) f.order =
      .ok (p / (4 ^ f.order * t ^ ((f.order : ℂ) + 1 / 2)) * g) := by
    rw [hpower]
    exact if_neg ht
  exact (inField_complex ht p g e).valueIn_eq hlead

end

/-! ## The denominator -/

/-- Powers of four have a text up to this exponent. -/
def lastOrder : ℕ := 7142

theorem writable_order {order : ℤ} (h : 0 ≤ order) (hlast : order ≤ lastOrder) :
    Text.Writable order := by
  have hbound : lastOrder ≤ 10 ^ 18 := by decide
  exact Text.writable_of_natAbs_le (by omega)

theorem four_pow_lt {n : ℕ} (h : n ≤ lastOrder) : 4 ^ n < 10 ^ Text.digitLimit := by
  have hlast : 4 ^ lastOrder < 10 ^ Text.digitLimit := by decide +kernel
  exact (Nat.pow_le_pow_right (by decide) h).trans_lt hlast

theorem le_four_pow {n : ℕ} (h : lastOrder < n) : 10 ^ Text.digitLimit ≤ 4 ^ n := by
  have hnext : 10 ^ Text.digitLimit ≤ 4 ^ (lastOrder + 1) := by decide +kernel
  exact hnext.trans (Nat.pow_le_pow_right (by decide) h)

theorem erfDenominator_eq {f : ClosedForm} {n : ℕ} (hn : f.order = n) :
    f.erfDenominator = ((4 ^ n : ℕ) : ℤ) := by
  have h : f.erfDenominator = (4 : ℚ) ^ f.order := rfl
  rw [h, hn, zpow_natCast]
  push_cast
  rfl

/-! ## Texts -/

section

variable {t : ℂ} (p g e : ℂ)

theorem means_XX : Means (nameValues t p g e) .primary "XX".toList t :=
  .name (by decide) (by decide) rfl

theorem means_sqrtPi : Means (nameValues t p g e) .primary "sqrt_pi".toList p :=
  .name (by decide) (by decide) rfl

theorem means_erf : Means (nameValues t p g e) .primary "erf_XX".toList g :=
  .name (by decide) (by decide) rfl

theorem means_exp : Means (nameValues t p g e) .primary "exp_XX".toList e :=
  .name (by decide) (by decide) rfl

/-- Zero in double precision. -/
theorem means_zero {lookup : List Char → Option ℂ} : Means lookup .primary "0d0".toList 0 := by
  have hzero : doubleNumeral? "0d0".toList = some 0 := by decide +kernel
  have hatom : atom? "0d0".toList = some (.number 0) := by
    rw [atom?, hzero]
    rfl
  exact .atom (.word (by decide) (by decide) (by decide)) hatom (by simp [Formula.value])

/-- A sum that goes on with further terms. -/
theorem means_addends {lookup : List Char → Option ℂ} {u : List Char} {y : ℂ}
    (hu : Means lookup .sum u y) {ss : List String} {xs : List ℂ}
    (h : List.Forall₂ (fun s x => Means lookup .term s.toList x) ss xs) :
    Means lookup .sum (u ++ (ss.map fun s => '+' :: s.toList).flatten) (y + xs.sum) := by
  induction h generalizing u y with
  | nil => simpa using hu
  | cons hs _ ih => simpa [add_assoc] using ih (hu.add hs)

theorem toList_intercalate_plus (s : String) (ss : List String) :
    ("+".intercalate (s :: ss)).toList = s.toList ++ (ss.map fun s => '+' :: s.toList).flatten := by
  induction ss generalizing s with
  | nil => simp
  | cons r ss ih => simp [String.intercalate_cons_cons, ih]

/-- Terms with plus signs between them. -/
theorem means_intercalate {lookup : List Char → Option ℂ} {ss : List String} {xs : List ℂ}
    (hne : ss ≠ []) (h : List.Forall₂ (fun s x => Means lookup .term s.toList x) ss xs) :
    Means lookup .sum ("+".intercalate ss).toList xs.sum := by
  cases h with
  | nil => exact absurd rfl hne
  | cons hs hss =>
    rw [toList_intercalate_plus, List.sum_cons]
    exact means_addends hs.sum hss

variable (ht : t ≠ 0)

include ht

/-- The power in a term of the tail. -/
theorem means_tailPower (k : ℕ) :
    Means (nameValues t p g e) .factor s!"XX**(-{k + 1})".toList (t ^ (-(k + 1 : ℤ))) := by
  have hdigits : Means (nameValues t p g e) .primary (Nat.toDigits 10 (k + 1)) ((k + 1 : ℕ) : ℚ) :=
    .numeral (numeral?_toDigits (k + 1))
  have h := (means_XX p g e).power hdigits.factor.negated.term.sum.parenthesized ht
  have hpower : t ^ (-(((k + 1 : ℕ) : ℚ) : ℂ)) = t ^ (-(k + 1 : ℤ)) := by
    rw [← Complex.cpow_intCast]
    push_cast
    rfl
  rw [hpower] at h
  simpa [Nat.toString_eq_repr, Nat.toList_repr] using h

theorem exists_tailTerm (short : Bool) {c : ℚ} (hc : ExactLiteral c) (k : ℕ) :
    ∃ s, ClosedForm.tailTerm short c k = .ok s ∧
      Means (nameValues t p g e) .term s.toList (c * t ^ (-(k + 1 : ℤ))) := by
  have hpower := means_tailPower p g e ht k
  unfold ClosedForm.tailTerm
  split
  · next hunit =>
    -- a unit coefficient is left out
    obtain rfl : c = 1 := by simpa using (Bool.and_eq_true_iff.1 hunit).2
    exact ⟨_, rfl, by simpa using hpower.term⟩
  · obtain ⟨w, hw, hvalue⟩ := hc
    refine ⟨s!"({w})*" ++ s!"XX**(-{k + 1})", bind_eq_ok.2 ⟨w, hw, rfl⟩, ?_⟩
    have h := (Means.decimal hvalue).term.sum.parenthesized.factor.term.mul hpower
    simpa using h

theorem exists_tailTerms (short : Bool) {cs : List (ℚ × ℕ)} (h : ∀ c ∈ cs, ExactLiteral c.1) :
    ∃ ss, cs.mapM (fun c => ClosedForm.tailTerm short c.1 c.2) = .ok ss ∧
      List.Forall₂ (fun s x => Means (nameValues t p g e) .term s.toList x) ss
        (cs.map fun c => (c.1 : ℂ) * t ^ (-(c.2 + 1 : ℤ))) := by
  induction cs with
  | nil => exact ⟨[], rfl, .nil⟩
  | cons c cs ih =>
    rw [List.forall_mem_cons] at h
    obtain ⟨s, hs, hmeans⟩ := exists_tailTerm p g e ht short h.1 c.2
    obtain ⟨ss, hss, hrest⟩ := ih h.2
    refine ⟨s :: ss, ?_, .cons hmeans hrest⟩
    rw [List.mapM_cons]
    exact bind_eq_ok.2 ⟨s, hs, bind_eq_ok.2 ⟨ss, hss, rfl⟩⟩

/-- The tail behind the first term. -/
theorem exists_tailText (f : ClosedForm) (hf : ∀ c ∈ f.tail, ExactLiteral c) (short : Bool) :
    ∃ s, f.tailText short = .ok s ∧ ∀ {u : List Char} {y : ℂ},
      Means (nameValues t p g e) .sum u y →
      Means (nameValues t p g e) .sum (u ++ s.toList)
        (y - e * (f.tail.zipIdx.map fun c => (c.1 : ℂ) * t ^ (-(c.2 + 1 : ℤ))).sum) := by
  have htail : ∀ {s : List Char} {x y : ℂ} {u : List Char},
      Means (nameValues t p g e) .sum s x → Means (nameValues t p g e) .sum u y →
      Means (nameValues t p g e) .sum (u ++ ("-exp_XX*(".toList ++ s ++ [')'])) (y - e * x) := by
    intro s x y u hs hu
    simpa using hu.sub ((means_exp p g e).factor.term.mul hs.parenthesized.factor)
  unfold ClosedForm.tailText
  split
  · next hempty =>
    rw [List.isEmpty_iff.1 hempty]
    refine ⟨_, rfl, fun {u y} hu => ?_⟩
    cases short with
    | true => simpa using hu
    | false => simpa using htail means_zero.factor.term.sum hu
  · next hne =>
    have hexact : ∀ c ∈ f.tail.zipIdx, ExactLiteral c.1 := fun c hc =>
      hf c.1 (List.fst_mem_of_mem_zipIdx hc)
    obtain ⟨ss, hss, hterms⟩ := exists_tailTerms p g e ht short hexact
    have hnil : ss ≠ [] := by
      rintro rfl
      have hlength := hterms.length_eq
      rw [List.length_map, List.length_zipIdx, List.length_nil] at hlength
      exact hne (by rw [List.isEmpty_iff, ← List.length_eq_zero_iff, ← hlength])
    refine ⟨_, bind_eq_ok.2 ⟨ss, hss, rfl⟩, fun {u y} hu => ?_⟩
    simpa using htail (means_intercalate hnil hterms) hu

/-- The first term. -/
theorem means_lead (n : ℕ) {w : String} (hw : decimal? w.toList = some ((4 ^ n : ℕ) : ℚ)) :
    Means (nameValues t p g e) .sum
      ("(sqrt_pi/(".toList ++ w.toList ++ "*XX**(".toList ++ halfChars n ++ ")))*erf_XX".toList)
      (p / (4 ^ n * t ^ ((n : ℂ) + 1 / 2)) * g) := by
  have hpower := (means_XX p g e).power (Means.half n).factor.term.sum.parenthesized ht
  have hproduct := (Means.decimal hw).term.mul hpower
  have hne : (((4 ^ n : ℕ) : ℚ) : ℂ) * t ^ ((n : ℂ) + 1 / 2) ≠ 0 := by
    refine mul_ne_zero ?_ (by simp [Complex.cpow_eq_zero_iff, ht])
    simp
  have hquotient := (means_sqrtPi p g e).factor.term.div hproduct.sum.parenthesized.factor hne
  have h := hquotient.sum.parenthesized.factor.term.mul (means_erf p g e).factor
  simpa using h.sum

/-- The text of a closed form, in short or in full, is a definition by a formula with its value. -/
theorem exists_render_value {f : ClosedForm} {n : ℕ} (hn : f.order = n) (hlast : n ≤ lastOrder)
    (hscale : ExactLiteral f.scale) (htail : ∀ c ∈ f.tail, ExactLiteral c) (short : Bool) :
    ∃ s a, f.render short = .ok s ∧ readDefinition s = some ⟨'F' :: Nat.toDigits 10 n, a⟩ ∧
      a.value (nameValues t p g e) = some (f.complexValue t p g e) := by
  obtain ⟨scale, hscale, hsvalue⟩ := hscale
  obtain ⟨tail, htail, hmeans⟩ := exists_tailText p g e ht f htail short
  obtain ⟨w, hw, hwvalue⟩ : ExactLiteral f.erfDenominator := by
    rw [erfDenominator_eq hn]
    exact exactLiteral_intCast (by simpa using four_pow_lt hlast)
  rw [erfDenominator_eq hn] at hwvalue
  have hname : isName ('F' :: Nat.toDigits 10 n) = true := by
    have hletter : isLetter 'F' = true := by decide
    exact hletter
  have hword : ScansSigned ('F' :: Nat.toDigits 10 n) [.word ('F' :: Nat.toDigits 10 n)] := by
    have hstart : startsNumeral 'F' = false := by decide
    refine .word (by decide) (extends?_of_all (by decide) fun d hd => ?_)
      (by simp [awaitsExponent, hstart])
    exact isWordChar_of_isDigit (isDigit_digitChars n d hd)
  have hbody := (Means.decimal hsvalue).term.mul
    (hmeans (means_lead p g e ht n hwvalue)).parenthesized.factor
  obtain ⟨a, hread, ha⟩ := exists_readDefinition hname hword hbody.sum
  have hdenominator : f.erfDenominatorText = .ok w := by
    rw [ClosedForm.erfDenominatorText, if_pos (by omega), hw]
  have horder : (Text.writeInt f.order).mapError NumberError.integer = .ok (toString f.order) :=
    mapError_eq_ok.2 ((Text.writes_writeInt _).eq_ok (writable_order (by omega) (by omega)))
  have hdigits : (toString f.order).toList = Nat.toDigits 10 n := by
    rw [hn, toList_intText, if_neg (by omega), Int.natAbs_natCast]
  refine ⟨_, a, bind_eq_ok.2 ⟨_, horder, bind_eq_ok.2 ⟨scale, hscale,
    bind_eq_ok.2 ⟨w, hdenominator, bind_eq_ok.2 ⟨tail, htail, rfl⟩⟩⟩⟩, ?_, ?_⟩
  · rw [← hread]
    congr 1
    apply String.toList_injective
    rw [String.toList_ofList]
    generalize toString f.order = order at hdigits
    simp [hdigits, halfChars]
  · rw [ha, ClosedForm.complexValue, hn]
    simp

end

/-- Beyond the last order neither text can be made. -/
theorem render_error {f : ClosedForm} (hlast : (lastOrder : ℤ) < f.order)
    (hscale : ExactLiteral f.scale) (short : Bool) :
    f.render short = .error (.integer .tooLongToWrite) := by
  obtain ⟨scale, hscale, -⟩ := hscale
  obtain ⟨n, hn⟩ := Int.eq_ofNat_of_zero_le (show 0 ≤ f.order by omega)
  have hdenominator : f.erfDenominatorText = .error (.integer .tooLongToWrite) := by
    rw [ClosedForm.erfDenominatorText, if_pos (by omega), erfDenominator_eq hn]
    exact literal_intCast_error (le_four_pow (by omega))
  rw [ClosedForm.render, hscale, hdenominator]
  -- an order that is itself too long to be written fails in the same way
  by_cases horder : Text.Writable f.order
  · rw [(Text.writes_writeInt _).eq_ok horder]
    rfl
  · rw [(Text.writes_writeInt _).eq_error horder]
    rfl

/-- **Both texts of a closed form denote its value**: up to the last order there are texts, in
short and in full, for all coefficients with exact literals; they define the name of the order
by a formula that has the value of the closed form at every argument but 0, and at a positive
one the real value. Beyond the last order the power of four has no text and both texts fail. -/
theorem closedForm_texts (f : ClosedForm) (hf : 0 ≤ f.order) (hscale : ExactLiteral f.scale)
    (htail : ∀ c ∈ f.tail, ExactLiteral c) (short : Bool) :
    (f.order ≤ lastOrder → ∃ s a, f.render short = .ok s ∧
      readDefinition s = some ⟨'F' :: (toString f.order).toList, a⟩ ∧
      (∀ t p g e : ℂ, t ≠ 0 →
        f.valueIn (complexQuantities t p g e) = .ok (f.complexValue t p g e) ∧
        a.value (nameValues t p g e) = some (f.complexValue t p g e)) ∧
      ∀ t p g e : ℝ, 0 < t →
        a.value (nameValues t p g e) = some ((f.realValue t p g e : ℝ) : ℂ)) ∧
    ((lastOrder : ℤ) < f.order → f.render short = .error (.integer .tooLongToWrite)) := by
  refine ⟨fun hlast => ?_, fun hlast => render_error hlast hscale short⟩
  obtain ⟨n, hn⟩ := Int.eq_ofNat_of_zero_le hf
  have hdigits : (toString f.order).toList = Nat.toDigits 10 n := by
    rw [hn, toList_intText, if_neg (by omega), Int.natAbs_natCast]
  have hall : ∀ t p g e : ℂ, t ≠ 0 → _ := fun t p g e ht =>
    exists_render_value p g e ht hn (by omega) hscale htail short
  -- the text and its reading are those at any one argument
  obtain ⟨s, a, hs, ha, -⟩ := hall 1 0 0 0 one_ne_zero
  have hvalue : ∀ t p g e : ℂ, t ≠ 0 →
      a.value (nameValues t p g e) = some (f.complexValue t p g e) := by
    intro t p g e ht
    obtain ⟨s', a', hs', ha', hx⟩ := hall t p g e ht
    obtain rfl : s = s' := Except.ok.inj (hs.symm.trans hs')
    obtain rfl : a = a' := by
      rw [ha] at ha'
      injection ha' with ha'
      injection ha'
    exact hx
  rw [hdigits]
  refine ⟨s, a, hs, ha, fun t p g e ht => ⟨valueIn_complex ht p g e f, hvalue t p g e ht⟩,
    fun t p g e ht => ?_⟩
  rw [hvalue _ _ _ _ (Complex.ofReal_ne_zero.2 ht.ne'), f.complexValue_ofReal ht]

/-- Coefficients of any sign, a unit and zero among them. -/
def signedForm : ClosedForm := ⟨1, -1 / 2, [1, 0, -3]⟩

example : (signedForm.render true).toOption =
    some "F1 = -0.5*((sqrt_pi/(4*XX**(1.5d0)))*erf_XX-exp_XX*(XX**(-1)+(0)*XX**(-2)+(-3)*XX**(-3)))" := by
  decide +kernel

theorem closedForm_texts_signed :
    ∃ s a, signedForm.render true = .ok s ∧ readDefinition s = some ⟨['F', '1'], a⟩ ∧
      (∀ t p g e : ℂ, t ≠ 0 →
        signedForm.valueIn (complexQuantities t p g e) = .ok (signedForm.complexValue t p g e) ∧
        a.value (nameValues t p g e) = some (signedForm.complexValue t p g e)) ∧
      ∀ t p g e : ℝ, 0 < t →
        a.value (nameValues t p g e) = some ((signedForm.realValue t p g e : ℝ) : ℂ) := by
  have hinteger : ∀ v : ℤ, v.natAbs ≤ 4 → ExactLiteral (v : ℚ) := fun v hv =>
    exactLiteral_of_natAbs_le (hv.trans (by decide))
  have hscale : ExactLiteral signedForm.scale :=
    exactLiteral_fraction (by decide +kernel) (by decide +kernel)
  have htail : ∀ c ∈ signedForm.tail, ExactLiteral c := by
    simp only [signedForm, List.forall_mem_cons]
    exact ⟨hinteger 1 (by decide), hinteger 0 (by decide), hinteger (-3) (by decide), by simp⟩
  exact (closedForm_texts signedForm (by decide) hscale htail true).1 (by decide)

/-- The first closed form without a text. -/
def beyondLast : ClosedForm := ⟨7143, 1, []⟩

/-- Not every closed form with exact literals has texts. -/
theorem not_all_closedForms_have_texts :
    ¬ ∀ f : ClosedForm, 0 ≤ f.order → ExactLiteral f.scale → (∀ c ∈ f.tail, ExactLiteral c) →
      ∀ short, ∃ s a, f.render short = .ok s ∧
        readDefinition s = some ⟨'F' :: (toString f.order).toList, a⟩ ∧
        ∀ t p g e : ℂ, t ≠ 0 →
          a.value (nameValues t p g e) = some (f.complexValue t p g e) := by
  intro h
  have hscale : ExactLiteral beyondLast.scale := exactLiteral_of_natAbs_le (v := 1) (by decide)
  obtain ⟨s, -, hs, -⟩ := h beyondLast (by decide) hscale (by simp [beyondLast]) true
  rw [render_error (by decide) hscale] at hs
  cases hs

end GaussianIntegrals.Boys
