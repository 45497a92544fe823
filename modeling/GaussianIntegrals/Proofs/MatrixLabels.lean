/-
  The texts of matrix entries: each stands for a reference with its row and column, the axis in
  front for a vector family, and different entries have different texts.
-/
import GaussianIntegrals.Dialect
import GaussianIntegrals.Proofs.FamilyParts
import GaussianIntegrals.Proofs.WrittenTexts

namespace GaussianIntegrals

open Code

/-- The index of an axis, counted from 1. -/
def axisIndices : Option ℤ → List Index
  | none => []
  | some a => [.ofInt (a + 1)]

/-- The entry of a matrix, behind leading indices. -/
def matrixReference (w : List Char) (lead : List Index) (row col : ℤ) : Reference :=
  ⟨w, lead ++ [.ofInt row, .ofInt col]⟩

/-! ## Entries as references -/

theorem Code.Index.ofInt_injective : Function.Injective Index.ofInt := by
  intro k l h
  have hk := decimal?_intText k
  have hl := decimal?_intText l
  rw [← toList_intText, ← Index.chars_ofInt] at hk hl
  rw [h, hl] at hk
  injection hk with hk
  exact_mod_cast hk.symm

theorem entryLabel_plain (w : List Char) (row col : ℤ) :
    entryLabel (String.ofList w) "" row col = (matrixReference w [] row col).text := by
  rw [← String.toList_inj, Reference.text, String.toList_ofList]
  simp [entryLabel, entryForm, matrixReference, Reference.chars, indexChars, Index.chars_ofInt]

theorem entryLabel_indexed (w : List Char) {i : Index} (hi : IsWord i.word) (row col : ℤ) :
    entryLabel (String.ofList w) (String.ofList i.chars) row col =
      (matrixReference w [i] row col).text := by
  have hne : i.chars ≠ [] := by
    unfold Index.chars
    split
    · exact List.cons_ne_nil _ _
    · exact hi.1
  rw [← String.toList_inj, Reference.text, String.toList_ofList]
  simp [entryLabel, entryForm, matrixReference, Reference.chars, indexChars, Index.chars_ofInt, hne]

theorem matrixLabel_eq_text (w : List Char) (axis : Option ℤ) (row col : ℤ) :
    matrixLabel (String.ofList w) axis row col =
      (matrixReference w (axisIndices axis) row col).text := by
  cases axis with
  | none => exact entryLabel_plain w row col
  | some a =>
    have hchars : String.ofList (Index.ofInt (a + 1)).chars = toString (a + 1) := by
      rw [Index.chars_ofInt, String.ofList_toList]
    rw [matrixLabel, ← hchars]
    exact entryLabel_indexed w (Index.isWord_ofInt _) row col

theorem wellFormed_matrixReference {w : List Char} (hn : isName w = true) (hw : IsWord w)
    {lead : List Index} (hl : ∀ i ∈ lead, IsWord i.word) (row col : ℤ) :
    (matrixReference w lead row col).WellFormed := by
  refine ⟨hn, hw, ?_⟩
  simp only [matrixReference, List.forall_mem_append, List.forall_mem_cons]
  exact ⟨hl, Index.isWord_ofInt row, Index.isWord_ofInt col, by simp⟩

theorem isWord_axisIndices (axis : Option ℤ) : ∀ i ∈ axisIndices axis, IsWord i.word := by
  cases axis with
  | none => simp [axisIndices]
  | some a => simpa [axisIndices] using Index.isWord_ofInt (a + 1)

theorem axisIndices_append_injective {axis axis' : Option ℤ} {r c r' c' : ℤ}
    (h : axisIndices axis ++ [.ofInt r, .ofInt c] = axisIndices axis' ++ [.ofInt r', .ofInt c']) :
    axis = axis' ∧ r = r' ∧ c = c' := by
  have hinj : ∀ k l : ℤ, Index.ofInt k = Index.ofInt l ↔ k = l :=
    fun k l => Index.ofInt_injective.eq_iff
  cases axis <;> cases axis' <;> simp [axisIndices, hinj] at h ⊢
  · exact h
  · exact h

/-! ## The raw and the basis matrix -/

/-- The characters of the raw matrix and of the basis matrix. -/
inductive IsMatrix : List Char → Prop where
  | raw : IsMatrix ['w', 'o']
  | basis : IsMatrix ['g']

theorem IsMatrix.isName {w : List Char} (h : IsMatrix w) : Code.isName w = true := by
  cases h <;> rfl

theorem IsMatrix.isWord {w : List Char} (h : IsMatrix w) : IsWord w := by
  cases h with
  | raw => exact isWord_of_all (by decide)
  | basis => exact isWord_of_all (by decide)

theorem IsMatrix.wellFormed {w : List Char} (h : IsMatrix w) (axis : Option ℤ) (row col : ℤ) :
    (matrixReference w (axisIndices axis) row col).WellFormed :=
  wellFormed_matrixReference h.isName h.isWord (isWord_axisIndices axis) row col

/-- The text of an entry tells the matrix, the axis, the row and the column. -/
theorem matrixLabel_injective {w w' : List Char} (hw : IsMatrix w) (hw' : IsMatrix w')
    {axis axis' : Option ℤ} {r c r' c' : ℤ}
    (h : matrixLabel (String.ofList w) axis r c = matrixLabel (String.ofList w') axis' r' c') :
    w = w' ∧ axis = axis' ∧ r = r' ∧ c = c' := by
  rw [matrixLabel_eq_text, matrixLabel_eq_text] at h
  have href := (hw.wellFormed axis r c).text_injective (hw'.wellFormed axis' r' c') h
  injection href with hname hindices
  exact ⟨hname, axisIndices_append_injective hindices⟩

/-- No symbol is an entry of either matrix. -/
theorem IsSymbol.ne_matrixLabel {n : String} (hn : IsSymbol n) {w : List Char} (hw : IsMatrix w)
    (axis : Option ℤ) (r c : ℤ) : n ≠ matrixLabel (String.ofList w) axis r c := by
  obtain ⟨s, hs, hraw, hbasis, rfl⟩ := hn
  rw [matrixLabel_eq_text]
  intro h
  have hname := congrArg Reference.name (hs.text_injective (hw.wellFormed axis r c) h)
  cases hw with
  | raw => exact hraw hname
  | basis => exact hbasis hname

/-- All names are texts of entries of the matrix. -/
def EntriesOf (w : List Char) (names : List String) : Prop :=
  ∀ k ∈ names, ∃ axis r c, k = matrixLabel (String.ofList w) axis r c

theorem EntriesOf.symbol_notMem {w : List Char} {names : List String} (h : EntriesOf w names)
    (hw : IsMatrix w) {n : String} (hn : IsSymbol n) : n ∉ names := by
  intro hmem
  obtain ⟨axis, r, c, heq⟩ := h n hmem
  exact hn.ne_matrixLabel hw axis r c heq

theorem EntriesOf.matrixLabel_notMem {w w' : List Char} {names : List String}
    (h : EntriesOf w names) (hw : IsMatrix w) (hw' : IsMatrix w') (hne : w' ≠ w)
    (axis : Option ℤ) (r c : ℤ) : matrixLabel (String.ofList w') axis r c ∉ names := by
  intro hmem
  obtain ⟨axis', r', c', heq⟩ := h _ hmem
  exact hne (matrixLabel_injective hw' hw heq).1

/-! ## Entries in the loop over the axes -/

/-- The index that runs over the axes. -/
def axisVariable : Index := ⟨false, ['i']⟩

/-- The leading indices of the entries in the loop over the axes. -/
def loopIndices : Option ℤ → List Index
  | none => []
  | some _ => [axisVariable]

/-- The loop over the axes, at one axis; the loop index counts from 1. -/
def axisLoop (d : Dialect) : Option ℤ → Loop
  | none => []
  | some a => [(d.axisIndex.toList, a + 1)]

theorem axisLoop_standard (a : ℤ) : axisLoop .standard (some a) = [(['i'], a + 1)] := by
  rw [axisLoop]
  rfl

theorem isWord_loopIndices (axis : Option ℤ) : ∀ i ∈ loopIndices axis, IsWord i.word := by
  cases axis with
  | none => simp [loopIndices]
  | some a =>
    have hi : IsWord ['i'] := isWord_of_all (by decide)
    simpa [loopIndices, axisVariable] using hi

/-- At an axis the entries of the loop are the entries of that axis. -/
theorem inLoop_matrixReference (w : List Char) (axis : Option ℤ) (row col : ℤ) :
    (matrixReference w (loopIndices axis) row col).inLoop (axisLoop .standard axis) =
      matrixReference w (axisIndices axis) row col := by
  cases axis with
  | none => exact Reference.inLoop_nil _
  | some a =>
    have hloop : ∀ p ∈ [(['i'], a + 1)], isName p.1 = true := by
      intro p hp
      rw [List.mem_singleton.1 hp]
      rfl
    have hvar : axisVariable.inLoop [(['i'], a + 1)] = .ofInt (a + 1) := rfl
    rw [axisLoop_standard]
    simp [Reference.inLoop, matrixReference, loopIndices, axisIndices, hvar,
      Index.inLoop_ofInt hloop]

end GaussianIntegrals
