/-
  Numbers in decimal are read back as long as they have no more digits than the reader takes
  (`readInt_toString_eq_ok_iff`): their text has no blanks, no sign and no digit of another
  script, so that the reader sees the digits alone.

  Writing has the same limit. A text that is put together from the texts of integers is there where
  all of them are `Writable`, and otherwise the error is that of an integer (`Writes`).
-/
import GaussianIntegrals.Proofs.Outcomes
import GaussianIntegrals.Text.Integer
import Mathlib.Algebra.Ring.Int.Defs
import Mathlib.Algebra.Ring.Nat
import Mathlib.Data.List.TakeWhile

namespace GaussianIntegrals.Text

/-! ## Digits -/

section Digit

variable {c : Char} (h : c.isDigit = true)

include h

theorem toNat_of_isDigit : 48 ≤ c.toNat ∧ c.toNat ≤ 57 := by
  simpa [Char.isDigit, UInt32.le_iff_toNat_le] using h

theorem decimalDigit?_of_isDigit : decimalDigit? c = some (c.toNat - 48) := by
  have hc := toNat_of_isDigit h
  rw [decimalDigit?, if_pos (by omega), if_pos hc]

theorem isDigitLike_of_isDigit : isDigitLike c = true := by
  rw [isDigitLike, decimalDigit?_of_isDigit h]
  rfl

theorem isNumeralBlank_of_isDigit : isNumeralBlank true c = false := by
  have hc := toNat_of_isDigit h
  have hspace : c ≠ ' ' := by
    rintro rfl
    exact absurd hc (by decide)
  have hhigh : ¬ c.toNat ≤ 13 := by omega
  simp [isNumeralBlank, hspace, hhigh]

end Digit

section Digits

variable {cs : List Char} (h : ∀ c ∈ cs, c.isDigit = true)

include h

theorem readDigits_of_isDigit (hne : cs ≠ []) :
    readDigits cs = some (cs.map fun c => c.toNat - 48) := by
  fun_induction readDigits cs with
  | case1 => exact absurd rfl hne
  | case2 c =>
    rw [decimalDigit?_of_isDigit (h c List.mem_cons_self)]
    rfl
  | case3 c rest d ds hd hds ih => exact absurd (h '_' (by simp)) (by decide)
  | case4 c rest hnone ih => exact absurd (h '_' (by simp)) (by decide)
  | case5 c rest hend hsep d ds hrest hd ih =>
    rw [decimalDigit?_of_isDigit (h c List.mem_cons_self), Option.some.injEq] at hd
    rw [ih (fun c hc => h c (List.mem_cons_of_mem _ hc)) hend, Option.some.injEq] at hrest
    rw [← hd, ← hrest, List.map_cons]
  | case6 c rest hend hsep hnone ih =>
    exact (hnone _ _ (decimalDigit?_of_isDigit (h c List.mem_cons_self))
      (ih (fun c hc => h c (List.mem_cons_of_mem _ hc)) hend)).elim

theorem numeralRun_of_isDigit : numeralRun cs = cs := by
  refine List.takeWhile_eq_self_iff.2 fun c hc => ?_
  rw [decimalDigit?_of_isDigit (h c hc), Option.isSome_some, Bool.or_true]

theorem dropWhile_blank_of_isDigit : cs.dropWhile (isNumeralBlank true) = cs := by
  cases cs with
  | nil => rfl
  | cons c cs =>
    rw [List.dropWhile_cons_of_neg]
    rw [isNumeralBlank_of_isDigit (h c List.mem_cons_self)]
    exact Bool.false_ne_true

end Digits

theorem ofDigits_map (cs : List Char) :
    ofDigits (cs.map fun c => c.toNat - 48) = Nat.ofDigitChars 10 cs 0 := by
  rw [ofDigits, List.foldl_map, Nat.ofDigitChars_eq_foldl]
  rfl

/-! ## Numbers -/

/-- A text of digits alone is read as the number they denote, unless there are too many. -/
theorem readInt_of_isDigit {s : String} (h : ∀ c ∈ s.toList, c.isDigit = true)
    (hne : s.toList ≠ []) :
    readInt s =
      if digitLimit < s.length then .error (.tooLongToRead s.length)
      else .ok (Nat.ofDigitChars 10 s.toList 0) := by
  have hascii : (s.toList.all (·.toNat < 128)) = true := by
    refine List.all_eq_true.2 fun c hc => decide_eq_true ?_
    have := toNat_of_isDigit (h c hc)
    omega
  have hbody : ((s.toList.dropWhile (isNumeralBlank true)).reverse.dropWhile
      (isNumeralBlank true)).reverse = s.toList := by
    rw [dropWhile_blank_of_isDigit h, dropWhile_blank_of_isDigit fun c hc =>
      h c (List.mem_reverse.1 hc), List.reverse_reverse]
  have hminus : ∀ rest, s.toList = '-' :: rest → False := fun rest heq =>
    absurd (h '-' (heq ▸ List.mem_cons_self)) (by decide)
  have hplus : ∀ rest, s.toList = '+' :: rest → False := fun rest heq =>
    absurd (h '+' (heq ▸ List.mem_cons_self)) (by decide)
  unfold readInt
  dsimp only
  rw [hascii, hbody]
  -- by these two facts the reader finds no sign
  simp only
  rw [numeralRun_of_isDigit h, readDigits_of_isDigit h hne]
  dsimp only
  rw [List.length_map, ofDigits_map, if_neg (Nat.lt_irrefl _), String.length_toList]
  rfl

theorem toList_toString_nat (n : Nat) : (toString n).toList = Nat.toDigits 10 n := by
  rw [Nat.toString_eq_repr, Nat.toList_repr]

theorem isDigit_toString_nat (n : Nat) : ∀ c ∈ (toString n).toList, c.isDigit = true := by
  rw [toList_toString_nat]
  exact fun c => Nat.isDigit_of_mem_toDigits (by decide) (by decide)

theorem length_toString_le_iff {n : Nat} :
    (toString n).length ≤ digitLimit ↔ n < 10 ^ digitLimit := by
  rw [Nat.toString_eq_repr]
  exact Nat.length_repr_le_iff (by decide)

/-- A number is read back just if it has not too many digits. -/
theorem readInt_toString_eq_ok_iff {n : Nat} {v : Int} :
    readInt (toString n) = .ok v ↔ n < 10 ^ digitLimit ∧ v = n := by
  have hne : (toString n).toList ≠ [] := by
    rw [toList_toString_nat]
    exact Nat.toDigits_ne_nil
  rw [readInt_of_isDigit (isDigit_toString_nat n) hne, toList_toString_nat,
    Nat.ofDigitChars_ten_toDigits, ← length_toString_le_iff]
  split
  · next h => exact iff_of_false nofun fun hle => absurd hle.1 (Nat.not_le.2 h)
  · next h =>
    rw [Except.ok.injEq]
    exact ⟨fun hv => ⟨Nat.not_lt.1 h, hv.symm⟩, fun hv => hv.2.symm⟩

/-! ## Writing -/

/-- The integer has no more digits than can be written. -/
structure Writable (v : Int) : Prop where
  natAbs_lt : v.natAbs < 10 ^ digitLimit

theorem writable_of_natAbs_le {v : Int} (h : v.natAbs ≤ 10 ^ 18) : Writable v :=
  ⟨Nat.lt_of_le_of_lt h (Nat.pow_lt_pow_right (by decide) (by decide))⟩

theorem Writable.of_natAbs_le {v w : Int} (hw : Writable w) (h : v.natAbs ≤ w.natAbs) :
    Writable v :=
  ⟨Nat.lt_of_le_of_lt h hw.natAbs_lt⟩

/-- The least integer that is too long. -/
theorem not_writable_pow : ¬ Writable (10 ^ digitLimit) := fun h => by
  have hpow (k : ℕ) : ((10 : ℤ) ^ k).natAbs = 10 ^ k := Int.natAbs_pow 10 k
  exact h.natAbs_lt.ne (hpow digitLimit)

/-- A computation of a text gives it where a condition holds; otherwise an integer is too long. -/
structure Writes {α : Type} (P : Prop) (x : Except IntegerError α) (a : α) : Prop where
  eq_ok : P → x = .ok a
  eq_error : ¬ P → x = .error .tooLongToWrite

theorem writes_writeInt (v : Int) : Writes (Writable v) (writeInt v) (toString v) := by
  have hlimit := @length_toString_le_iff v.natAbs
  constructor
  · exact fun h => if_neg (Nat.not_lt.2 (hlimit.2 h.natAbs_lt))
  · exact fun h => if_pos (Nat.not_le.1 fun hle => h ⟨hlimit.1 hle⟩)

namespace Writes

variable {α β : Type} {P Q : Prop} {x : Except IntegerError α} {a : α}

theorem pure (a : α) : Writes True (.ok a) a := ⟨fun _ => rfl, fun h => absurd trivial h⟩

theorem congr (h : Writes P x a) (hPQ : P ↔ Q) : Writes Q x a :=
  ⟨fun hQ => h.eq_ok (hPQ.2 hQ), fun hQ => h.eq_error (mt hPQ.1 hQ)⟩

theorem eq_ok_iff (h : Writes P x a) {b : α} : x = .ok b ↔ P ∧ a = b := by
  by_cases hP : P
  · rw [h.eq_ok hP, Except.ok.injEq]
    exact ⟨fun hb => ⟨hP, hb⟩, fun hb => hb.2⟩
  · rw [h.eq_error hP]
    exact ⟨nofun, fun hb => absurd hb.1 hP⟩

theorem bind (h : Writes P x a) {f : α → Except IntegerError β} {b : β} (hf : Writes Q (f a) b) :
    Writes (P ∧ Q) (x >>= f) b := by
  by_cases hP : P
  · rw [h.eq_ok hP]
    exact ⟨fun hPQ => hf.eq_ok hPQ.2, fun hPQ => hf.eq_error fun hQ => hPQ ⟨hP, hQ⟩⟩
  · rw [h.eq_error hP]
    exact ⟨fun hPQ => absurd hPQ.1 hP, fun _ => rfl⟩

theorem bind_pure (h : Writes P x a) (f : α → β) : Writes P (x >>= fun a => .ok (f a)) (f a) :=
  (h.bind (.pure (f a))).congr (and_iff_left trivial)

/-- A list of texts is written where each of them is. -/
theorem mapM {P : α → Prop} {f : α → Except IntegerError β} {g : α → β} {as : List α}
    (h : ∀ a ∈ as, Writes (P a) (f a) (g a)) :
    Writes (∀ a ∈ as, P a) (as.mapM f) (as.map g) := by
  induction as with
  | nil => exact (Writes.pure []).congr ⟨fun _ => List.forall_mem_nil _, fun _ => trivial⟩
  | cons a as ih =>
    rw [List.forall_mem_cons] at h
    rw [List.mapM_cons, List.map_cons]
    exact (h.1.bind ((ih h.2).bind_pure (g a :: ·))).congr List.forall_mem_cons.symm

end Writes

end GaussianIntegrals.Text
