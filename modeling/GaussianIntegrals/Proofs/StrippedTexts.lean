/-
  Blanks at the ends of a text. More of them do not change the stripped text (`strip_append_left`,
  `strip_append_right`), so neither does taking them away at one end. A character that is no blank
  keeps all that stands inside of it (`strip_append_cons`).
-/
import GaussianIntegrals.Text.Blank
import Mathlib.Data.List.TakeWhile

namespace GaussianIntegrals.Text

/-- All characters are blank. -/
def AllBlank (cs : List Char) : Prop := ∀ c ∈ cs, isBlank c = true

theorem AllBlank.reverse {w : List Char} (hw : AllBlank w) : AllBlank w.reverse :=
  fun c hc => hw c (List.mem_reverse.1 hc)

/-! ## Blanks -/

/-- A text is what is left of it, behind blanks. -/
theorem exists_append_dropBlank (cs : List Char) : ∃ w, AllBlank w ∧ w ++ dropBlank cs = cs :=
  ⟨cs.takeWhile isBlank, fun _ hc => List.mem_takeWhile_imp hc, List.takeWhile_append_dropWhile⟩

/-- A text is what is left of it, in front of blanks. -/
theorem exists_dropBlankEnd_append (cs : List Char) :
    ∃ w, AllBlank w ∧ dropBlankEnd cs ++ w = cs := by
  obtain ⟨w, hw, hcs⟩ := exists_append_dropBlank cs.reverse
  refine ⟨w.reverse, hw.reverse, ?_⟩
  rw [← List.reverse_inj, ← hcs, List.reverse_append, List.reverse_reverse, dropBlankEnd,
    List.reverse_reverse, dropBlank]

theorem dropBlank_append_left {w : List Char} (hw : AllBlank w) (cs : List Char) :
    dropBlank (w ++ cs) = dropBlank cs :=
  List.dropWhile_append_of_pos hw

theorem dropBlankEnd_append_right {w : List Char} (hw : AllBlank w) (cs : List Char) :
    dropBlankEnd (cs ++ w) = dropBlankEnd cs := by
  rw [dropBlankEnd, List.reverse_append, List.dropWhile_append_of_pos hw.reverse, dropBlankEnd]

theorem strip_append_left {w : List Char} (hw : AllBlank w) (cs : List Char) :
    strip (w ++ cs) = strip cs := by
  rw [strip, dropBlank_append_left hw, strip]

theorem strip_append_right {w : List Char} (hw : AllBlank w) (cs : List Char) :
    strip (cs ++ w) = strip cs := by
  have hdrop : dropBlank w = [] := List.dropWhile_eq_nil_iff.2 hw
  rw [strip, strip, dropBlank, List.dropWhile_append]
  split
  · next h =>
    -- the text is blank, so with and without the blanks behind it nothing is left
    rw [List.isEmpty_iff] at h
    have hempty : dropBlank cs = [] := h
    rw [hempty]
    exact congrArg dropBlankEnd hdrop
  · exact dropBlankEnd_append_right hw _

theorem strip_dropBlank (cs : List Char) : strip (dropBlank cs) = strip cs := by
  obtain ⟨w, hw, hcs⟩ := exists_append_dropBlank cs
  rw [← strip_append_left hw, hcs]

theorem strip_dropBlankEnd (cs : List Char) : strip (dropBlankEnd cs) = strip cs := by
  obtain ⟨w, hw, hcs⟩ := exists_dropBlankEnd_append cs
  rw [← strip_append_right hw, hcs]

/-! ## Other characters -/

theorem dropBlank_append_cons {c : Char} (hc : isBlank c = false) (as bs : List Char) :
    dropBlank (as ++ c :: bs) = dropBlank as ++ c :: bs := by
  have hstop : (c :: bs).dropWhile isBlank = c :: bs :=
    List.dropWhile_cons_of_neg (by rw [hc]; exact Bool.false_ne_true)
  rw [dropBlank, List.dropWhile_append, hstop]
  split
  · next h =>
    rw [List.isEmpty_iff] at h
    rw [dropBlank, h, List.nil_append]
  · rfl

theorem dropBlankEnd_append_cons {c : Char} (hc : isBlank c = false) (as bs : List Char) :
    dropBlankEnd (as ++ c :: bs) = as ++ c :: dropBlankEnd bs := by
  have h := dropBlank_append_cons hc bs.reverse as.reverse
  unfold dropBlank at h
  rw [dropBlankEnd, List.reverse_append, List.reverse_cons, List.append_assoc,
    List.singleton_append, h]
  simp [dropBlankEnd]

/-- A character that is no blank ends the blanks in front of it and begins those behind it. -/
theorem strip_append_cons {c : Char} (hc : isBlank c = false) (as bs : List Char) :
    strip (as ++ c :: bs) = dropBlank as ++ c :: dropBlankEnd bs := by
  rw [strip, dropBlank_append_cons hc, dropBlankEnd_append_cons hc]

theorem head?_strip (cs : List Char) : (strip cs).head? = (dropBlank cs).head? := by
  have hhead := List.head?_dropWhile_not isBlank cs
  rw [strip, dropBlank]
  cases hcs : cs.dropWhile isBlank with
  | nil => rfl
  | cons c ds =>
    rw [hcs] at hhead
    have hkeep : dropBlankEnd (c :: ds) = c :: dropBlankEnd ds :=
      dropBlankEnd_append_cons hhead [] ds
    rw [hkeep, List.head?_cons, List.head?_cons]

end GaussianIntegrals.Text
