/-
  Numerals of the generated code and the rational numbers they denote: digits, with a point
  among them or not, and an exponent of ten after the mark `e`. All values are exact.
-/
import GaussianIntegrals.Number.Literal
import GaussianIntegrals.Proofs.Code.Token
import GaussianIntegrals.Proofs.IntegerTexts
import Mathlib.Algebra.Field.Rat
import Mathlib.Algebra.Order.Ring.Rat
import Mathlib.Data.List.TakeWhile

namespace GaussianIntegrals.Code

open GaussianIntegrals.Number

/-- The natural number that digits denote. -/
def natural? (cs : List Char) : Option ℕ :=
  if cs ≠ [] ∧ cs.all Char.isDigit then some (Nat.ofDigitChars 10 cs 0) else none

/-- The exponent after a mark, 0 where there is none. -/
def exponent? : List Char → Option ℤ
  | [] => some 0
  | _ :: '-' :: cs => (natural? cs).map fun n : ℕ => -(n : ℤ)
  | _ :: '+' :: cs => (natural? cs).map fun n : ℕ => (n : ℤ)
  | _ :: cs => (natural? cs).map fun n : ℕ => (n : ℤ)

/-- The number that a numeral without a sign denotes. -/
def numeral? (w : List Char) : Option ℚ := do
  let mantissa := w.takeWhile (· != 'e')
  let places := (mantissa.dropWhile (· != '.')).drop 1
  let n ← natural? (mantissa.takeWhile (· != '.') ++ places)
  let k ← exponent? (w.dropWhile (· != 'e'))
  some (n * 10 ^ (k - places.length))

/-- The number that a numeral denotes, a minus sign in front of it or none. -/
def decimal? : List Char → Option ℚ
  | '-' :: w => (numeral? w).map fun v => -v
  | w => numeral? w

theorem natural?_eq_some {cs : List Char} {n : ℕ} (h : natural? cs = some n) :
    cs ≠ [] ∧ ∀ c ∈ cs, c.isDigit = true := by
  unfold natural? at h
  split at h
  · next hc => exact ⟨hc.1, List.all_eq_true.1 hc.2⟩
  · cases h

theorem natural?_toDigits (n : ℕ) : natural? (Nat.toDigits 10 n) = some n := by
  have hall : (Nat.toDigits 10 n).all Char.isDigit = true :=
    List.all_eq_true.2 fun c hc => Nat.isDigit_of_mem_toDigits (by decide) (by decide) hc
  rw [natural?, if_pos ⟨Nat.toDigits_ne_nil, hall⟩, Nat.ofDigitChars_ten_toDigits]

theorem isWordChar_of_isDigit {c : Char} (h : c.isDigit = true) : isWordChar c = true := by
  simp [isWordChar, h]

theorem exists_natural? {α : Type} {f : ℕ → α} {cs : List Char} {a : α}
    (h : (natural? cs).map f = some a) : ∃ n, natural? cs = some n := by
  obtain ⟨n, hn, -⟩ := Option.map_eq_some_iff.1 h
  exact ⟨n, hn⟩

/-! ## Numerals are words -/

theorem isWordChar_of_startsNumeral {c : Char} (h : startsNumeral c = true) :
    isWordChar c = true := by
  rcases Bool.or_eq_true_iff.1 h with hd | hd
  · exact isWordChar_of_isDigit hd
  · rw [beq_iff_eq.1 hd]
    decide

/-- The digits and the point of a numeral. -/
theorem mantissa_chars {w : List Char} {n : ℕ}
    (h : natural? (w.takeWhile (· != '.') ++ (w.dropWhile (· != '.')).drop 1) = some n) :
    w ≠ [] ∧ ∀ c ∈ w, startsNumeral c = true := by
  obtain ⟨hne, hdigits⟩ := natural?_eq_some h
  have hsplit := List.takeWhile_append_dropWhile (p := (· != '.')) (l := w)
  constructor
  · rintro rfl
    exact hne rfl
  · intro c hc
    rw [startsNumeral, Bool.or_eq_true]
    rw [← hsplit, List.mem_append] at hc
    rcases hc with hc | hc
    · exact .inl (hdigits c (List.mem_append_left _ hc))
    · cases hp : w.dropWhile (· != '.') with
      | nil => rw [hp] at hc; cases hc
      | cons d ds =>
        rw [hp] at hc hdigits
        rcases List.mem_cons.1 hc with rfl | hc
        · have hd := List.head_dropWhile_not (· != '.') (l := w) (by rw [hp]; simp)
          simp only [hp, List.head_cons] at hd
          exact .inr (by simpa using hd)
        · exact .inl (hdigits c (List.mem_append_right _ (by simpa using hc)))

theorem extends?_natural {w cs : List Char} {n : ℕ} (hw : w.head?.any isWordChar = true)
    (h : natural? cs = some n) : extends? w cs = true :=
  extends?_of_all hw fun c hc => isWordChar_of_isDigit ((natural?_eq_some h).2 c hc)

theorem continues_mark {c : Char} {cs : List Char} (hc : startsNumeral c = true) :
    continues (c :: cs) 'e' = true := by
  have he : isWordChar 'e' = true := by decide
  simp [continues, isWordChar_of_startsNumeral hc, he]

/-- A sign goes on with a numeral after the mark only. -/
theorem continues_sign {c : Char} {cs : List Char} (hc : startsNumeral c = true) {s : Char}
    (hs : s = '+' ∨ s = '-') : continues (c :: cs ++ ['e']) s = true := by
  have hlast : (c :: (cs ++ ['e'])).getLast? = some 'e' := by
    rw [← List.cons_append, List.getLast?_concat]
  have hwait : awaitsExponent (c :: cs ++ ['e']) = true := by
    simp only [awaitsExponent, List.cons_append, hlast]
    simpa using hc
  have hhead : (c :: cs ++ ['e']).head?.any isWordChar = true := isWordChar_of_startsNumeral hc
  rcases hs with rfl | rfl <;> rw [continues, hhead, hwait] <;> simp

/-- The mark, the sign and the digits of an exponent go on with a numeral. -/
theorem extends?_exponent {c : Char} {cs mark : List Char} {k : ℤ} (hc : startsNumeral c = true)
    (hm : mark.head?.all (· == 'e') = true) (h : exponent? mark = some k) :
    extends? (c :: cs) mark = true := by
  have hcw : isWordChar c = true := isWordChar_of_startsNumeral hc
  cases mark with
  | nil => rfl
  | cons e u =>
    have he : e = 'e' := by simpa using hm
    subst he
    rw [extends?, continues_mark hc, Bool.true_and]
    -- a sign takes one character, then digits follow
    unfold exponent? at h
    split at h
    · next heq => cases heq
    · next v heq =>
      cases heq
      obtain ⟨n, hn⟩ := exists_natural? h
      rw [extends?, continues_sign hc (.inr rfl), Bool.true_and]
      exact extends?_natural (by simpa using hcw) hn
    · next v heq =>
      cases heq
      obtain ⟨n, hn⟩ := exists_natural? h
      rw [extends?, continues_sign hc (.inl rfl), Bool.true_and]
      exact extends?_natural (by simpa using hcw) hn
    · next v _ _ heq =>
      cases heq
      obtain ⟨n, hn⟩ := exists_natural? h
      exact extends?_natural (by simpa using hcw) hn

/-- The mantissa of a numeral and its mark, if it has one, with the exponent. -/
theorem exists_mantissa {w : List Char} {v : ℚ} (h : numeral? w = some v) :
    ∃ c cs mark k, w = c :: cs ++ mark ∧ (∀ d ∈ c :: cs, startsNumeral d = true) ∧
      mark.head?.all (· == 'e') = true ∧ exponent? mark = some k := by
  simp only [numeral?, Option.bind_eq_bind, Option.bind_eq_some_iff] at h
  obtain ⟨n, hn, k, hk, -⟩ := h
  obtain ⟨hne, hchars⟩ := mantissa_chars hn
  have hsplit := List.takeWhile_append_dropWhile (p := (· != 'e')) (l := w)
  have hmark : (w.dropWhile (· != 'e')).head?.all (· == 'e') = true := by
    cases hx : w.dropWhile (· != 'e') with
    | nil => rfl
    | cons d ds =>
      have hd := List.head_dropWhile_not (· != 'e') (l := w) (by rw [hx]; simp)
      simp only [hx, List.head_cons] at hd
      simpa using hd
  obtain ⟨c, cs, hm⟩ := List.exists_cons_of_ne_nil hne
  rw [hm] at hsplit hchars
  exact ⟨c, cs, _, k, hsplit.symm, hchars, hmark, hk⟩

/-- The characters of a numeral go on with its first one. -/
theorem exists_extends?_numeral {w : List Char} {v : ℚ} (h : numeral? w = some v) :
    ∃ c cs, w = c :: cs ∧ isWordChar c = true ∧ extends? [c] cs = true := by
  obtain ⟨c, cs, mark, k, rfl, hchars, hmark, hk⟩ := exists_mantissa h
  have hstart : startsNumeral c = true := hchars c List.mem_cons_self
  have hc : isWordChar c = true := isWordChar_of_startsNumeral hstart
  have hcs : extends? [c] cs = true :=
    extends?_of_all (by simpa using hc) fun d hd =>
      isWordChar_of_startsNumeral (hchars d (List.mem_cons_of_mem c hd))
  exact ⟨c, cs ++ mark, rfl, hc, extends?_append hcs (extends?_exponent hstart hmark hk)⟩

/-- A numeral is one word. -/
theorem Scans.numeral {w : List Char} {v : ℚ} (h : numeral? w = some v) : Scans w [.word w] := by
  obtain ⟨c, cs, rfl, hc, hcs⟩ := exists_extends?_numeral h
  exact Scans.word hc hcs

theorem getLast?_natural {cs : List Char} {n : ℕ} (h : natural? cs = some n) :
    ∃ d, cs.getLast? = some d ∧ d.isDigit = true := by
  obtain ⟨hne, hdigits⟩ := natural?_eq_some h
  exact ⟨_, List.getLast?_eq_some_getLast hne, hdigits _ (List.getLast_mem hne)⟩

/-- An exponent ends with a digit. -/
theorem getLast?_exponent {mark : List Char} {k : ℤ} (hne : mark ≠ [])
    (h : exponent? mark = some k) : ∃ d, mark.getLast? = some d ∧ d.isDigit = true := by
  have hlast : ∀ (pre : List Char) {cs : List Char} {f : ℕ → ℤ},
      (natural? cs).map f = some k → ∃ d, (pre ++ cs).getLast? = some d ∧ d.isDigit = true := by
    intro pre cs f hcs
    obtain ⟨n, hn⟩ := exists_natural? hcs
    obtain ⟨d, hd, hdigit⟩ := getLast?_natural hn
    exact ⟨d, by rw [List.getLast?_append, hd]; rfl, hdigit⟩
  unfold exponent? at h
  split at h
  · exact absurd rfl hne
  · exact hlast [_, '-'] h
  · exact hlast [_, '+'] h
  · exact hlast [_] h

/-- A numeral awaits no exponent. -/
theorem awaitsExponent_numeral {w : List Char} {v : ℚ} (h : numeral? w = some v) :
    awaitsExponent w = false := by
  obtain ⟨c, cs, mark, k, rfl, hchars, -, hk⟩ := exists_mantissa h
  have hlast : ∃ d, (c :: cs ++ mark).getLast? = some d ∧ startsNumeral d = true := by
    rcases eq_or_ne mark [] with rfl | hne
    · rw [List.append_nil]
      exact ⟨_, List.getLast?_eq_some_getLast (List.cons_ne_nil c cs),
        hchars _ (List.getLast_mem _)⟩
    · obtain ⟨d, hd, hdigit⟩ := getLast?_exponent hne hk
      exact ⟨d, by rw [List.getLast?_append, hd]; rfl, by simp [startsNumeral, hdigit]⟩
  obtain ⟨d, hd, hstart⟩ := hlast
  have hde : d ≠ 'e' := by
    rintro rfl
    exact absurd hstart (by decide)
  rw [awaitsExponent, hd, Bool.and_eq_false_iff]
  exact .inr (by simpa using hde)

theorem ScansSigned.numeral {w : List Char} {v : ℚ} (h : numeral? w = some v) :
    ScansSigned w [.word w] := by
  have hend := awaitsExponent_numeral h
  obtain ⟨c, cs, rfl, hc, hcs⟩ := exists_extends?_numeral h
  exact .word hc hcs hend

/-- A name begins with a letter; other words are numerals. -/
def isName (w : List Char) : Bool := w.head?.any isLetter

theorem not_isLetter_of_isDigit {c : Char} (h : c.isDigit = true) : isLetter c = false := by
  have hc : c.val ≤ 57 := of_decide_eq_true (Bool.and_eq_true_iff.1 h).2
  have hlt : ∀ b : UInt32, 57 < b → ¬ b ≤ c.val := fun b hb hbc =>
    UInt32.lt_irrefl b (UInt32.lt_of_le_of_lt (UInt32.le_trans hbc hc) hb)
  refine Bool.eq_false_iff.2 fun ha => ?_
  rw [isLetter, Bool.or_eq_true, Bool.or_eq_true] at ha
  rcases ha with (ha | ha) | ha
  · rcases Bool.or_eq_true_iff.1 ha with hu | hl
    · exact hlt 65 (by decide) (of_decide_eq_true hu).1
    · exact hlt 97 (by decide) (of_decide_eq_true (Bool.and_eq_true_iff.1 hl).1)
  · rw [beq_iff_eq.1 ha] at h
    exact absurd h (by decide)
  · have hle : c.toNat ≤ 57 := UInt32.le_iff_toNat_le.1 hc
    have hgt : 127 < c.toNat := of_decide_eq_true ha
    omega

/-- A numeral begins with a digit or a point. -/
theorem startsNumeral_of_numeral {c : Char} {cs : List Char} {v : ℚ}
    (h : numeral? (c :: cs) = some v) : startsNumeral c = true := by
  obtain ⟨d, ds, mark, k, hw, hchars, -⟩ := exists_mantissa h
  injection hw with hc
  rw [hc]
  exact hchars d List.mem_cons_self

theorem isName_of_numeral {w : List Char} {v : ℚ} (h : numeral? w = some v) :
    isName w = false := by
  cases w with
  | nil => rfl
  | cons c cs =>
    rcases Bool.or_eq_true_iff.1 (startsNumeral_of_numeral h) with hd | hd
    · exact not_isLetter_of_isDigit hd
    · rw [beq_iff_eq.1 hd, isName]
      rfl

/-- A numeral has no sign. -/
theorem decimal?_of_numeral {w : List Char} {v : ℚ} (h : numeral? w = some v) :
    decimal? w = some v := by
  unfold decimal?
  split
  · exact absurd (startsNumeral_of_numeral h) (by decide)
  · exact h

/-! ## Natural numbers -/

theorem bne_of_digits {cs : List Char} {m : Char} (hm : m.isDigit = false)
    (h : ∀ c ∈ cs, c.isDigit = true) : ∀ c ∈ cs, (c != m) = true := by
  intro c hc
  rw [bne_iff_ne]
  rintro rfl
  rw [h c hc] at hm
  cases hm

/-- Digits alone are a numeral. -/
theorem numeral?_of_natural {w : List Char} {n : ℕ} (h : natural? w = some n) :
    numeral? w = some (n : ℚ) := by
  have hdigits := (natural?_eq_some h).2
  have hkeep : ∀ m : Char, m.isDigit = false → ∀ c ∈ w, (c != m) = true := fun m hm =>
    bne_of_digits hm hdigits
  have he : w.takeWhile (· != 'e') = w := List.takeWhile_eq_self_iff.2 (hkeep 'e' (by decide))
  have hp : w.takeWhile (· != '.') = w := List.takeWhile_eq_self_iff.2 (hkeep '.' (by decide))
  have he' : w.dropWhile (· != 'e') = [] := List.dropWhile_eq_nil_iff.2 (hkeep 'e' (by decide))
  have hp' : w.dropWhile (· != '.') = [] := List.dropWhile_eq_nil_iff.2 (hkeep '.' (by decide))
  simp [numeral?, he, he', hp, hp', h, exponent?]

theorem numeral?_toDigits (n : ℕ) : numeral? (Nat.toDigits 10 n) = some (n : ℚ) :=
  numeral?_of_natural (natural?_toDigits n)

@[simp]
theorem toString_string (s : String) : toString s = s := rfl

/-- An integer's digits, behind a minus sign if it is negative. -/
theorem toList_intText (k : ℤ) :
    (toString k).toList =
      if k < 0 then '-' :: Nat.toDigits 10 k.natAbs else Nat.toDigits 10 k.natAbs := by
  cases k with
  | ofNat n =>
    have hn : ¬ (Int.ofNat n < 0) := by simp
    rw [if_neg hn]
    simp [Int.toString_eq_repr, Int.repr, Nat.toList_repr]
  | negSucc n =>
    rw [if_pos (Int.negSucc_lt_zero n)]
    simp [Int.toString_eq_repr, Int.repr, Nat.toList_repr]

/-- The decimal text of an integer denotes it. -/
theorem decimal?_intText (v : ℤ) :
    decimal? (if v < 0 then '-' :: Nat.toDigits 10 v.natAbs else Nat.toDigits 10 v.natAbs) =
      some (v : ℚ) := by
  split
  · next hv =>
    have habs : (v.natAbs : ℤ) = -v := by omega
    have hcast : ((v.natAbs : ℕ) : ℚ) = -(v : ℚ) := by
      rw [← Int.cast_natCast, habs, Int.cast_neg]
    rw [decimal?, numeral?_toDigits, Option.map_some, hcast, neg_neg]
  · next hv =>
    have habs : (v.natAbs : ℤ) = v := by omega
    have hcast : ((v.natAbs : ℕ) : ℚ) = (v : ℚ) := by
      rw [← Int.cast_natCast, habs]
    rw [decimal?_of_numeral (numeral?_toDigits v.natAbs), hcast]

/-! ## Decimal texts of quotients -/

theorem natural?_of_digits {cs : List Char} (hne : cs ≠ []) (h : ∀ c ∈ cs, c.isDigit = true) :
    natural? cs = some (Nat.ofDigitChars 10 cs 0) :=
  if_pos ⟨hne, List.all_eq_true.2 h⟩

/-- The number with digits before and behind a point, times a power of ten. -/
def pointed (whole places : List Char) (k : ℤ) : ℚ :=
  Nat.ofDigitChars 10 (whole ++ places) 0 * 10 ^ (k - places.length)

/-- Digits, a point and digits behind it if there are any, and an exponent or none. -/
theorem numeral?_withPoint {whole places mark : List Char} (hne : whole ≠ [])
    (hwhole : ∀ c ∈ whole, c.isDigit = true) (hplaces : ∀ c ∈ places, c.isDigit = true)
    (hmark : mark = [] ∨ mark.head? = some 'e') {k : ℤ} (hk : exponent? mark = some k) :
    numeral? (withPoint false whole places ++ mark) = some (pointed whole places k) := by
  -- the mantissa is what stands before the mark
  have hmantissa : ∀ c ∈ withPoint false whole places, (c != 'e') = true := by
    unfold withPoint
    split
    · exact bne_of_digits (by decide) hwhole
    · rw [List.forall_mem_append, List.forall_mem_cons]
      exact ⟨bne_of_digits (by decide) hwhole, by decide, bne_of_digits (by decide) hplaces⟩
  -- what stands before and behind its point
  have hdigits : (withPoint false whole places).takeWhile (· != '.') = whole ∧
      ((withPoint false whole places).dropWhile (· != '.')).drop 1 = places := by
    have hpoint : ∀ c ∈ whole, (c != '.') = true := bne_of_digits (by decide) hwhole
    unfold withPoint
    split
    · next hempty =>
      have hnil : places = [] := by simpa using hempty
      rw [List.takeWhile_eq_self_iff.2 hpoint, List.dropWhile_eq_nil_iff.2 hpoint, hnil]
      exact ⟨rfl, rfl⟩
    · rw [List.takeWhile_append_of_pos hpoint, List.dropWhile_append_of_pos hpoint]
      simp
  have hrest : mark.takeWhile (· != 'e') = [] ∧ mark.dropWhile (· != 'e') = mark := by
    obtain rfl | hhead := hmark
    · exact ⟨rfl, rfl⟩
    · obtain ⟨cs, rfl⟩ := List.head?_eq_some_iff.1 hhead
      simp
  have hn := natural?_of_digits (List.append_ne_nil_of_left_ne_nil hne places)
    (List.forall_mem_append.2 ⟨hwhole, hplaces⟩)
  simp only [numeral?, List.takeWhile_append_of_pos hmantissa,
    List.dropWhile_append_of_pos hmantissa, hrest, List.append_nil, hdigits, hn, hk,
    Option.bind_eq_bind, Option.bind_some, pointed]

theorem isDigit_digitChars (n : ℕ) : ∀ c ∈ digitChars n, c.isDigit = true := fun _ hc =>
  Nat.isDigit_of_mem_toDigits (by decide) (by decide) hc

theorem isDigit_replicate_zero (n : ℕ) : ∀ c ∈ List.replicate n '0', c.isDigit = true := by
  intro c hc
  rw [(List.mem_replicate.1 hc).2]
  decide

theorem isDigit_padZeros {cs : List Char} (h : ∀ c ∈ cs, c.isDigit = true) (width : ℕ) :
    ∀ c ∈ padZeros width cs, c.isDigit = true :=
  List.forall_mem_append.2 ⟨isDigit_replicate_zero _, h⟩

theorem isDigit_dropZeros {cs : List Char} (h : ∀ c ∈ cs, c.isDigit = true) :
    ∀ c ∈ dropZeros cs, c.isDigit = true := fun c hc =>
  h c (List.mem_reverse.1 ((List.dropWhile_sublist _).subset (List.mem_reverse.1 hc)))

theorem ofDigitChars_zeros_append (n : ℕ) (cs : List Char) :
    Nat.ofDigitChars 10 (List.replicate n '0' ++ cs) 0 = Nat.ofDigitChars 10 cs 0 := by
  rw [Nat.ofDigitChars_append, Nat.ofDigitChars_replicate_zero, Nat.mul_zero]

theorem ofDigitChars_append_zeros (cs : List Char) (n : ℕ) :
    Nat.ofDigitChars 10 (cs ++ List.replicate n '0') 0 = 10 ^ n * Nat.ofDigitChars 10 cs 0 := by
  rw [Nat.ofDigitChars_append, Nat.ofDigitChars_replicate_zero]

theorem ofDigitChars_padZeros (width n : ℕ) :
    Nat.ofDigitChars 10 (padZeros width (digitChars n)) 0 = n := by
  rw [padZeros, ofDigitChars_zeros_append, digitChars, Nat.ofDigitChars_ten_toDigits]

/-- What `dropZeros` takes away are zeros at the end. -/
theorem exists_append_dropZeros (cs : List Char) :
    ∃ n, cs = dropZeros cs ++ List.replicate n '0' := by
  have hsplit := List.takeWhile_append_dropWhile (p := fun c => decide (c = '0')) (l := cs.reverse)
  have hzeros : ∀ c ∈ cs.reverse.takeWhile fun c => decide (c = '0'), c = '0' := fun c hc =>
    of_decide_eq_true (List.mem_takeWhile_imp (p := fun c => decide (c = '0')) hc)
  refine ⟨(cs.reverse.takeWhile fun c => decide (c = '0')).length, ?_⟩
  have hreverse := congrArg List.reverse hsplit
  rw [List.reverse_append, List.reverse_reverse, List.eq_replicate_of_mem hzeros,
    List.reverse_replicate] at hreverse
  exact hreverse.symm

/-- Zeros at the end of the places do not count. -/
theorem pointed_dropZeros (whole places : List Char) (k : ℤ) :
    pointed whole (dropZeros places) k = pointed whole places k := by
  obtain ⟨n, hn⟩ := exists_append_dropZeros places
  generalize dropZeros places = kept at hn
  have hlength : (places.length : ℤ) = kept.length + n := by
    rw [hn, List.length_append, List.length_replicate, Nat.cast_add]
  have hpow : (10 : ℚ) ^ (k - kept.length) = 10 ^ n * 10 ^ (k - places.length) := by
    rw [← zpow_natCast, ← zpow_add₀ (by decide)]
    congr 1
    omega
  rw [pointed, pointed, hpow, hn, ← List.append_assoc, ofDigitChars_append_zeros, ← hn,
    Nat.cast_mul, Nat.cast_pow, Nat.cast_ofNat, mul_left_comm, mul_assoc]

/-- A point among digits divides by a power of ten. -/
theorem pointed_take_drop {cs : List Char} {i : ℕ} (hi : i ≤ cs.length) (k : ℤ) :
    pointed (cs.take i) (cs.drop i) k =
      (Nat.ofDigitChars 10 cs 0 : ℚ) * 10 ^ (k + i - cs.length) := by
  have hlength : ((cs.drop i).length : ℤ) = cs.length - i := by
    rw [List.length_drop, Nat.cast_sub hi]
  rw [pointed, List.take_append_drop, hlength, sub_sub_eq_add_sub]

theorem exponent?_exponentChars (e : ℤ) : exponent? (exponentChars 'e' e) = some e := by
  have hne : padZeros 2 (digitChars e.natAbs) ≠ [] :=
    List.append_ne_nil_of_right_ne_nil _ Nat.toDigits_ne_nil
  have hn := natural?_of_digits hne (isDigit_padZeros (isDigit_digitChars e.natAbs) 2)
  rw [ofDigitChars_padZeros] at hn
  unfold exponentChars
  split <;> simp only [exponent?, hn, Option.map_some, Option.some.injEq] <;> omega

/-- Significant digits in the form of literals denote the number that they are the digits of. -/
theorem numeral?_write (s : Significant) :
    numeral? (literalForm.write s) =
      some ((s.digits : ℚ) *
        10 ^ (s.exponent + 1 - ((padZeros 15 (digitChars s.digits)).length : ℤ))) := by
  have hdigits := isDigit_padZeros (isDigit_digitChars s.digits) 15
  have hvalue := ofDigitChars_padZeros 15 s.digits
  have hlength : 15 ≤ (padZeros 15 (digitChars s.digits)).length := by
    rw [padZeros, List.length_append, List.length_replicate]
    omega
  generalize hcs : padZeros 15 (digitChars s.digits) = cs at hdigits hvalue hlength
  have hwhole : ∀ i, 0 < i → cs.take i ≠ [] := fun i hi h => by
    have hlen := congrArg List.length h
    rw [List.length_take, List.length_nil] at hlen
    omega
  have htake : ∀ i, ∀ c ∈ cs.take i, c.isDigit = true := fun i c hc =>
    hdigits c (List.mem_of_mem_take hc)
  have hdrop : ∀ i, ∀ c ∈ dropZeros (cs.drop i), c.isDigit = true := fun i =>
    isDigit_dropZeros fun c hc => hdigits c (List.mem_of_mem_drop hc)
  -- a positional text ends with its places
  have hnone : ∀ {whole places : List Char}, whole ≠ [] → (∀ c ∈ whole, c.isDigit = true) →
      (∀ c ∈ places, c.isDigit = true) →
      numeral? (withPoint false whole places) = some (pointed whole places 0) := by
    intro whole places hne hw hp
    rw [← List.append_nil (withPoint _ _ _)]
    exact numeral?_withPoint hne hw hp (.inl rfl) rfl
  simp only [GeneralForm.write, literalForm, hcs, if_neg Bool.false_ne_true]
  split
  · rw [numeral?_withPoint (hwhole 1 one_pos) (htake 1) (hdrop 1) (.inr rfl)
      (exponent?_exponentChars s.exponent), pointed_dropZeros, pointed_take_drop (by omega), hvalue,
      Nat.cast_one]
  · next hpositional =>
    split
    · next hneg =>
      have hplaces := List.forall_mem_append.2
        ⟨isDigit_replicate_zero (s.exponent.natAbs - 1), hdigits⟩
      rw [hnone (List.cons_ne_nil _ _) (List.forall_mem_singleton.2 rfl)
          (isDigit_dropZeros hplaces), pointed_dropZeros, pointed, ← List.replicate_one, ofDigitChars_zeros_append,
        ofDigitChars_zeros_append, hvalue, List.length_append, List.length_replicate]
      congr 3
      omega
    · next hnonneg =>
      rw [hnone (hwhole _ (Nat.succ_pos _)) (htake _) (hdrop _), pointed_dropZeros,
        pointed_take_drop (by omega), hvalue]
      congr 3
      omega

/-! ## Literals -/

/-- A literal is a numeral, behind a minus sign if the number is negative. -/
theorem exists_numeral?_of_literal {v : ℚ} {s : String} (h : literal v = .ok s) :
    ∃ w x, numeral? w = some x ∧ s.toList = if v < 0 then '-' :: w else w := by
  unfold literal at h
  split at h
  · next hden =>
    have hv : (v.num : ℚ) = v := Rat.coe_int_num_of_den_eq_one hden
    have hsign : v.num < 0 ↔ v < 0 := Rat.num_neg
    refine ⟨_, _, numeral?_toDigits v.num.natAbs, ?_⟩
    rw [mapError_eq_ok, (Text.writes_writeInt v.num).eq_ok_iff] at h
    rw [← h.2, toList_intText]
    simp only [hsign]
  · split at h
    · cases h
    · next b _ =>
      injection h with h
      refine ⟨_, _, numeral?_write
        (Significant.round literalForm.significant b.toQuotient.1 b.toQuotient.2), ?_⟩
      rw [← h, String.toList_ofList]
      simp only [Rat.num_neg]
      rfl

/-- The number has a literal, and it denotes the number. -/
def ExactLiteral (v : ℚ) : Prop := ∃ s, literal v = .ok s ∧ decimal? s.toList = some v

/-- An integer of at most 4300 digits has an exact literal. -/
theorem exactLiteral_intCast {v : ℤ} (h : v.natAbs < 10 ^ Text.digitLimit) :
    ExactLiteral (v : ℚ) := by
  refine ⟨toString v, ?_, ?_⟩
  · rw [literal, if_pos (Rat.den_intCast v), Rat.num_intCast, (Text.writes_writeInt v).eq_ok ⟨h⟩]
    rfl
  · rw [toList_intText]
    exact decimal?_intText v

/-- An integer of more than 4300 digits has no literal. -/
theorem literal_intCast_error {v : ℤ} (h : 10 ^ Text.digitLimit ≤ v.natAbs) :
    literal (v : ℚ) = .error (.integer .tooLongToWrite) := by
  rw [literal, if_pos (Rat.den_intCast v), Rat.num_intCast,
    (Text.writes_writeInt v).eq_error fun hv => not_lt.2 h hv.natAbs_lt]
  rfl

/-- An integer of at most 18 digits has an exact literal. -/
theorem exactLiteral_of_natAbs_le {v : ℤ} (h : v.natAbs ≤ 10 ^ 18) : ExactLiteral (v : ℚ) :=
  exactLiteral_intCast (Text.writable_of_natAbs_le h).natAbs_lt

/-- The characters of the literal of a number that is no integer. -/
def fractionChars? (v : ℚ) : Option (List Char) :=
  (Binary.nearest? v.num.natAbs v.den).map fun b =>
    let (n, d) := b.toQuotient
    let cs := literalForm.chars n d
    if v.num < 0 then '-' :: cs else cs

theorem exactLiteral_fraction {v : ℚ} (hden : v.den ≠ 1)
    (h : (fractionChars? v).bind decimal? = some v) : ExactLiteral v := by
  unfold fractionChars? at h
  cases hb : Binary.nearest? v.num.natAbs v.den with
  | none =>
    rw [hb] at h
    cases h
  | some b =>
    rw [hb, Option.map_some, Option.bind_some] at h
    refine ⟨_, by rw [literal, if_neg hden, hb], ?_⟩
    rw [String.toList_ofList]
    exact h

end GaussianIntegrals.Code
