/-
  Texts that differ only in the case of ASCII letters. No blank, no sign and no mark is such a
  letter, and each of them has a case; so these texts have the same blanks (`SameLetters.strip`) and
  the same lower case (`SameLetters.lower_eq`), a capital sigma in them included.
-/
import GaussianIntegrals.Text.Blank
import GaussianIntegrals.Text.Casing
import Mathlib.Data.List.Forall2

namespace GaussianIntegrals.Text

/-- The code point is that of an ASCII letter. -/
def IsLetterCode (n : ℕ) : Prop := 65 ≤ n ∧ n ≤ 90 ∨ 97 ≤ n ∧ n ≤ 122

/-- The characters are the same letter up to its case, if it is an ASCII letter. -/
def SameLetter (c d : Char) : Prop := c.toLower = d.toLower

/-- The texts are the same up to the case of ASCII letters. -/
def SameLetters (as bs : List Char) : Prop := List.Forall₂ SameLetter as bs

theorem toNat_toLower (c : Char) :
    c.toLower.toNat = if 65 ≤ c.toNat ∧ c.toNat ≤ 90 then c.toNat + 32 else c.toNat := by
  have hupper : (c.val ≥ 'A'.val ∧ c.val ≤ 'Z'.val) ↔ 65 ≤ c.toNat ∧ c.toNat ≤ 90 := by
    rw [ge_iff_le, UInt32.le_iff_toNat_le, UInt32.le_iff_toNat_le]
    rfl
  by_cases h : 65 ≤ c.toNat ∧ c.toNat ≤ 90
  · obtain ⟨hvalid, hlower⟩ : ∃ hvalid, c.toLower = ⟨c.val + 32, hvalid⟩ :=
      ⟨_, dif_pos (hupper.2 h)⟩
    have hsum : (c.val + 32).toNat = c.val.toNat + 32 := by
      rw [UInt32.toNat_add]
      have hcode : c.val.toNat = c.toNat := rfl
      exact Nat.mod_eq_of_lt (by rw [hcode]; simp; omega)
    rw [if_pos h, hlower]
    exact hsum
  · rw [if_neg h]
    exact congrArg Char.toNat (dif_neg fun hc => h (hupper.1 hc))

theorem SameLetter.eq_or {c d : Char} (h : SameLetter c d) :
    c = d ∨ IsLetterCode c.toNat ∧ IsLetterCode d.toNat := by
  have hcode := congrArg Char.toNat h
  rw [toNat_toLower, toNat_toLower] at hcode
  by_cases heq : c.toNat = d.toNat
  · exact .inl (Char.toNat_inj.1 heq)
  · refine .inr ?_
    unfold IsLetterCode
    split at hcode <;> split at hcode <;> omega

/-- What all ASCII letters have in common, these characters have in common. -/
theorem SameLetter.congr {α : Type} {p : ℕ → α} {a : α} (hp : ∀ n, IsLetterCode n → p n = a)
    {c d : Char} (h : SameLetter c d) : p c.toNat = p d.toNat := by
  rcases h.eq_or with rfl | ⟨hc, hd⟩
  · rfl
  · rw [hp _ hc, hp _ hd]

theorem inRanges_of_isLetterCode {ranges : List (ℕ × ℕ)} {b : Bool}
    (h : (List.range 123).all (fun n => !(65 ≤ n ∧ n ≤ 90 ∨ 97 ≤ n ∧ n ≤ 122) ||
      inRanges ranges n == b) = true) {n : ℕ} (hn : IsLetterCode n) : inRanges ranges n = b := by
  unfold IsLetterCode at hn
  have hmem : n ∈ List.range 123 := List.mem_range.2 (by omega)
  simpa [hn] using List.all_eq_true.1 h n hmem

theorem SameLetter.isBlank_eq {c d : Char} (h : SameLetter c d) : isBlank c = isBlank d :=
  h.congr (p := inRanges blankRanges) (a := false) fun _ => inRanges_of_isLetterCode (by decide)

theorem SameLetter.transparent_eq {c d : Char} (h : SameLetter c d) :
    inRanges transparentRanges c.toNat = inRanges transparentRanges d.toNat :=
  h.congr (a := false) fun _ => inRanges_of_isLetterCode (by decide +kernel)

theorem SameLetter.cased_eq {c d : Char} (h : SameLetter c d) :
    inRanges casedRanges c.toNat = inRanges casedRanges d.toNat :=
  h.congr (a := true) fun _ => inRanges_of_isLetterCode (by decide +kernel)

/-! ## Texts -/

theorem forall₂_dropWhile {α β : Type} {R : α → β → Prop} {p : α → Bool} {q : β → Bool}
    (hpq : ∀ a b, R a b → p a = q b) {as : List α} {bs : List β} (h : List.Forall₂ R as bs) :
    List.Forall₂ R (as.dropWhile p) (bs.dropWhile q) := by
  induction h with
  | nil => exact .nil
  | @cons a b as bs hab h ih =>
    rw [List.dropWhile_cons, List.dropWhile_cons, hpq a b hab]
    split
    · exact ih
    · exact .cons hab h

theorem SameLetters.strip {as bs : List Char} (h : SameLetters as bs) :
    SameLetters (strip as) (strip bs) := by
  have hdrop := forall₂_dropWhile (fun _ _ hab => SameLetter.isBlank_eq hab) h
  have hend := forall₂_dropWhile (fun _ _ hab => SameLetter.isBlank_eq hab)
    (List.forall₂_reverse_iff.2 hdrop)
  exact List.forall₂_reverse_iff.2 hend

theorem SameLetters.meetsCased_eq {as bs : List Char} (h : SameLetters as bs) :
    meetsCased as = meetsCased bs := by
  have hdrop := forall₂_dropWhile (fun _ _ hab => SameLetter.transparent_eq hab) h
  unfold meetsCased
  generalize as.dropWhile _ = as' at hdrop ⊢
  generalize bs.dropWhile _ = bs' at hdrop ⊢
  cases hdrop with
  | nil => rfl
  | cons hab _ => exact hab.cased_eq

theorem lowerChar_of_isLetterCode {c : Char} (h : IsLetterCode c.toNat) :
    c ≠ 'Σ' ∧ lowerChar c = [c.toLower] := by
  unfold IsLetterCode at h
  refine ⟨?_, if_pos (by omega)⟩
  rintro rfl
  revert h
  decide

theorem SameLetters.lowerAfter_eq {before before' : List Char}
    (hbefore : SameLetters before before') {as bs : List Char} (h : SameLetters as bs) :
    lowerAfter before as = lowerAfter before' bs := by
  induction h generalizing before before' with
  | nil => rfl
  | @cons c d as bs hcd h ih =>
    rw [lowerAfter, lowerAfter, ih (.cons hcd hbefore)]
    rcases hcd.eq_or with rfl | ⟨hc, hd⟩
    · rw [hbefore.meetsCased_eq, SameLetters.meetsCased_eq h]
    · obtain ⟨hcsigma, hclower⟩ := lowerChar_of_isLetterCode hc
      obtain ⟨hdsigma, hdlower⟩ := lowerChar_of_isLetterCode hd
      rw [if_neg hcsigma, if_neg hdsigma, hclower, hdlower, hcd]

theorem SameLetters.lower_eq {as bs : List Char} (h : SameLetters as bs) : lower as = lower bs :=
  SameLetters.lowerAfter_eq .nil h

/-! ## Other characters -/

section Others

variable {as bs : List Char} (h : SameLetters as bs) {c : Char} (hc : ¬ IsLetterCode c.toNat)

include hc

theorem SameLetter.eq_iff {a b : Char} (h : SameLetter a b) : a = c ↔ b = c := by
  rcases h.eq_or with rfl | ⟨ha, hb⟩
  · exact Iff.rfl
  · constructor
    · rintro rfl
      exact absurd ha hc
    · rintro rfl
      exact absurd hb hc

include h

theorem SameLetters.head?_eq_iff : as.head? = some c ↔ bs.head? = some c := by
  cases h with
  | nil => exact Iff.rfl
  | cons hab _ =>
    rw [List.head?_cons, List.head?_cons, Option.some.injEq, Option.some.injEq, hab.eq_iff hc]

theorem SameLetters.mem_iff : c ∈ as ↔ c ∈ bs := by
  induction h with
  | nil => exact Iff.rfl
  | cons hab _ ih =>
    rw [List.mem_cons, List.mem_cons, ih, eq_comm, hab.eq_iff hc, eq_comm]

end Others

end GaussianIntegrals.Text
