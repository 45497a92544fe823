/-
  Powers, matrix entries and formulas as texts. Each of these texts is there where all integers in
  it are writable, and it is then the label that is defined here, which knows no limit (`Writes`).
  The line of a cell is there where, besides, the cell has a formula (`renderCell_eq_ok_iff`).
-/
import GaussianIntegrals.Expr.Render
import GaussianIntegrals.Family.Basic
import GaussianIntegrals.Proofs.IntegerTexts

namespace GaussianIntegrals

open Text (Writable Writes writes_writeInt)

/-! ## Powers -/

namespace Expr

/-- A symbol with its exponent, however long. -/
def powerLabel (base : String) (exponent : ℤ) : String :=
  parenthesized (base ++ "**" ++
    (if exponent < 0 then parenthesized (toString exponent) else toString exponent))

theorem writes_powerText (base : String) (exponent : ℤ) :
    Writes (Writable exponent) (powerText base exponent) (powerLabel base exponent) :=
  (writes_writeInt exponent).bind_pure fun text =>
    parenthesized (base ++ "**" ++ (if exponent < 0 then parenthesized text else text))

theorem render_power_eq_ok_iff {base : String} {exponent : ℤ} {s : String} :
    (power base exponent).render = .ok s ↔
      Writable exponent ∧ powerLabel base exponent = s := by
  rw [render, mapError_eq_ok, (writes_powerText base exponent).eq_ok_iff]

theorem render_power {base : String} {exponent : ℤ} (h : Writable exponent) :
    (power base exponent).render = .ok (powerLabel base exponent) :=
  render_power_eq_ok_iff.2 ⟨h, rfl⟩

end Expr

/-! ## Entries -/

/-- A matrix entry with an optional leading index, however long its numbers. -/
def entryLabel (matrix index : String) (row col : ℤ) : String :=
  entryForm matrix index (toString row) (toString col)

theorem writes_entryText (matrix index : String) (row col : ℤ) :
    Writes (Writable row ∧ Writable col) (entryText matrix index row col)
      (entryLabel matrix index row col) :=
  (writes_writeInt row).bind
    ((writes_writeInt col).bind_pure fun text => entryForm matrix index (toString row) text)

/-- An entry of a matrix that has a component for each axis, if there is one. -/
def matrixLabel (matrix : String) (axis : Option ℤ) (row col : ℤ) : String :=
  match axis with
  | none => entryLabel matrix "" row col
  | some a => entryLabel matrix (toString (a + 1)) row col

theorem writes_rawLabel (f : Family) (o1 o2 : ℤ) (axis : Option ℤ) :
    Writes ((∀ a ∈ axis, Writable (a + 1)) ∧ Writable o1 ∧ Writable o2) (f.rawLabel o1 o2 axis)
      (matrixLabel f.rawName axis o1 o2) := by
  cases axis with
  | none => exact (writes_entryText f.rawName "" o1 o2).congr (by simp)
  | some a =>
    exact ((writes_writeInt (a + 1)).bind (writes_entryText f.rawName _ o1 o2)).congr (by simp)

/-! ## Formulas -/

namespace WeightedEntry

/-- The weight, the row and the column are writable. -/
structure Writable (w : WeightedEntry) : Prop where
  weight : Text.Writable w.weight
  row : Text.Writable w.row
  col : Text.Writable w.col

/-- The factor in front of a weighted entry, however long; 1 is not written. -/
def factorLabel (w : WeightedEntry) : String :=
  if w.weight.natAbs = 1 then "" else s!"{w.weight.natAbs}*"

/-- A weighted entry without its sign, however long its numbers. -/
def magnitudeLabel (form : CellForm) (w : WeightedEntry) : String :=
  w.factorLabel ++ entryLabel form.source form.index w.row w.col

theorem writes_factorText (w : WeightedEntry) :
    Writes (Text.Writable w.weight) w.factorText w.factorLabel := by
  unfold factorText factorLabel
  split
  · next hone =>
    have hw : Text.Writable w.weight := Text.writable_of_natAbs_le (by omega)
    exact (Writes.pure "").congr ⟨fun _ => hw, fun _ => trivial⟩
  · exact ((writes_writeInt w.weight.natAbs).bind_pure (· ++ "*")).congr
      ⟨fun h => h.of_natAbs_le le_rfl, fun h => h.of_natAbs_le le_rfl⟩

theorem writes_magnitudeText (form : CellForm) (w : WeightedEntry) :
    Writes w.Writable (w.magnitudeText form) (w.magnitudeLabel form) :=
  (w.writes_factorText.bind ((writes_entryText form.source form.index w.row w.col).bind_pure
    (w.factorLabel ++ ·))).congr
      ⟨fun h => ⟨h.1, h.2.1, h.2.2⟩, fun h => ⟨h.weight, h.row, h.col⟩⟩

end WeightedEntry

/-- A formula, however long its numbers. -/
def formulaLabel (form : CellForm) (f : Formula) : String :=
  formulaForm (f.map fun w => (w, w.magnitudeLabel form))

/-- All entries of a formula are writable. -/
def Formula.Writable (f : Formula) : Prop := ∀ w ∈ f, w.Writable

theorem writes_formulaText (form : CellForm) (f : Formula) :
    Writes f.Writable (formulaText form f) (formulaLabel form f) :=
  (Writes.mapM fun w _ => (w.writes_magnitudeText form).bind_pure (w, ·)).bind_pure formulaForm

/-! ## Lines -/

/-- The line of a basis entry, however long its numbers. -/
def rebasedLine (form : CellForm) (f : Formula) (row col : ℤ) : String :=
  entryLabel form.target form.index row col ++ Text.strippedEnd form.assignment ++
    formulaLabel form f

section Cells

variable {t : RebasingTable} {form : CellForm} {row col : ℤ}

theorem renderCell_eq_ok_iff {line : String} :
    t.renderCell form row col = .ok line ↔ (Writable row ∧ Writable col) ∧
      ∃ f, t.formula row col = .ok f ∧ f.Writable ∧ rebasedLine form f row col = line := by
  simp only [RebasingTable.renderCell, bind_eq_ok, mapError_eq_ok,
    (writes_entryText _ _ _ _).eq_ok_iff, (writes_formulaText _ _).eq_ok_iff, Except.ok.injEq]
  constructor
  · rintro ⟨_, ⟨hcell, rfl⟩, f, hf, _, ⟨hw, rfl⟩, rfl⟩
    exact ⟨hcell, f, hf, hw, rfl⟩
  · rintro ⟨hcell, f, hf, hw, rfl⟩
    exact ⟨_, ⟨hcell, rfl⟩, f, hf, _, ⟨hw, rfl⟩, rfl⟩

theorem renderCell_eq_ok (hcell : Writable row ∧ Writable col) {f : Formula}
    (hf : t.formula row col = .ok f) (hw : f.Writable) :
    t.renderCell form row col = .ok (rebasedLine form f row col) :=
  renderCell_eq_ok_iff.2 ⟨hcell, f, hf, hw, rfl⟩

/-- Why a writable cell has no line. -/
theorem of_renderCell_eq_error (hcell : Writable row ∧ Writable col) {e : RebasingError}
    (h : t.renderCell form row col = .error e) : t.formula row col = .error e ∨
      ∃ f, t.formula row col = .ok f ∧ ¬ f.Writable ∧ e = .integer .tooLongToWrite := by
  simp only [RebasingTable.renderCell, (writes_entryText _ _ _ _).eq_ok hcell, bind, Except.bind,
    Except.mapError] at h
  cases hf : t.formula row col with
  | error e' =>
    rw [hf] at h
    cases h
    exact .inl rfl
  | ok f =>
    simp only [hf] at h
    by_cases hw : f.Writable
    · rw [(writes_formulaText form f).eq_ok hw] at h
      cases h
    · rw [(writes_formulaText form f).eq_error hw] at h
      cases h
      exact .inr ⟨f, rfl, hw, rfl⟩

end Cells

end GaussianIntegrals
