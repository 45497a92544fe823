/-
  A branch assigns before it uses. Its raw lines assign to all raw entries and its re-based
  lines to all basis entries, to each of them once, and at every axis of the family what a
  re-based line refers to is a raw entry of the same branch (`assigned_before_use`).

  The family is arbitrary, so the names of the matrices and the loop index are any texts:
  labels are told apart by their indices, which stand behind all of these. A re-based line is
  the text of a formula of the table, whose raw entries lie inside the extent of the block.
-/
import GaussianIntegrals.Proofs.EmittedProgram

namespace GaussianIntegrals

open Code

/-! ## Labels -/

/-- An entry of a matrix, behind a leading index if there is one. -/
def indexedEntry (matrix : String) (lead : Option String) (row col : ℤ) : String :=
  match lead with
  | none => s!"{matrix}({row},{col})"
  | some i => s!"{matrix}({i},{row},{col})"

theorem entryLabel_none (matrix : String) (row col : ℤ) :
    entryLabel matrix "" row col = indexedEntry matrix none row col := by
  simp [entryLabel, entryForm, indexedEntry]

theorem entryLabel_some (matrix : String) {i : String} (hi : i ≠ "") (row col : ℤ) :
    entryLabel matrix i row col = indexedEntry matrix (some i) row col := by
  simp [entryLabel, entryForm, indexedEntry, hi]

/-- The leading index at an axis, counted from 1. -/
def axisLead (axis : Option ℤ) : Option String := axis.map fun a => toString (a + 1)

theorem intText_ne_empty (k : ℤ) : toString k ≠ "" := by
  intro h
  have hchars := Index.chars_ofInt k
  rw [h] at hchars
  unfold Index.chars at hchars
  split at hchars
  · cases hchars
  · exact (Index.isWord_ofInt k).1 hchars

theorem matrixLabel_eq_indexedEntry (matrix : String) (axis : Option ℤ) (row col : ℤ) :
    matrixLabel matrix axis row col = indexedEntry matrix (axisLead axis) row col := by
  cases axis with
  | none => exact entryLabel_none _ _ _
  | some a => exact entryLabel_some _ (intText_ne_empty (a + 1)) _ _

theorem indexedEntry_eq_append (matrix : String) (lead : Option String) (row col : ℤ) :
    indexedEntry matrix lead row col = matrix ++ indexedEntry "" lead row col := by
  cases lead <;> simp [indexedEntry, String.append_assoc]

/-- Labels of entries differ, whatever the matrix is called. -/
theorem matrixLabel_injective_of_name {matrix : String} {axis axis' : Option ℤ} {r c r' c' : ℤ}
    (h : matrixLabel matrix axis r c = matrixLabel matrix axis' r' c') :
    axis = axis' ∧ r = r' ∧ c = c' := by
  rw [matrixLabel_eq_indexedEntry, matrixLabel_eq_indexedEntry, indexedEntry_eq_append,
    indexedEntry_eq_append _ (axisLead axis'), String.append_right_inj] at h
  have hnamed : matrixLabel (String.ofList ['w', 'o']) axis r c =
      matrixLabel (String.ofList ['w', 'o']) axis' r' c' := by
    rw [matrixLabel_eq_indexedEntry, matrixLabel_eq_indexedEntry, indexedEntry_eq_append, h,
      ← indexedEntry_eq_append]
  exact (matrixLabel_injective .raw .raw hnamed).2

theorem indexedEntry_injective {matrix : String} {lead : Option String} {r c r2 c2 : ℤ}
    (h : indexedEntry matrix lead r c = indexedEntry matrix lead r2 c2) : r = r2 ∧ c = c2 := by
  have hindices : s!"{r},{c})" = s!"{r2},{c2})" := by
    cases lead <;> simpa [indexedEntry, String.append_assoc, String.append_right_inj] using h
  have hnamed : matrixLabel (String.ofList ['g']) none r c =
      matrixLabel (String.ofList ['g']) none r2 c2 := by
    simpa [matrixLabel, entryLabel, entryForm, String.append_assoc, String.append_right_inj]
      using hindices
  exact (matrixLabel_injective .basis .basis hnamed).2.2

/-! ## Extents -/

namespace RebasingTable

/-- Raw rows and columns are counted from 1. -/
def Positive (t : RebasingTable) : Prop := ∀ p ∈ t.cells, ∀ w ∈ p.2, 1 ≤ w.row ∧ 1 ≤ w.col

/-- The extent of the basis block of a pair of shells does not exceed its raw block. -/
def FitsRaw (t : RebasingTable) (c : ShellPair) : Prop :=
  ∃ rows cols, t.rawExtent c.basisSizes.1 c.basisSizes.2 = .ok (rows, cols) ∧
    rows ≤ c.rawSizes.1 ∧ cols ≤ c.rawSizes.2

theorem greatest?_eq_max? (ns : List ℤ) : greatest? ns = ns.max? := by
  cases ns with
  | nil => rfl
  | cons n ns => rw [greatest?, List.max?_cons']

theorem greatest?_eq_some {ns : List ℤ} {n : ℤ} :
    greatest? ns = some n ↔ n ∈ ns ∧ ∀ k ∈ ns, k ≤ n := by
  rw [greatest?_eq_max?, List.max?_eq_some_iff]

/-- A block that has an extent has all its cells, and its raw entries lie inside the extent. -/
theorem exists_formula_of_rawExtent {t : RebasingTable} {blockRows blockCols : ℕ} {rows cols : ℤ}
    (h : t.rawExtent blockRows blockCols = .ok (rows, cols)) {row col : ℤ}
    (hr : row ∈ sidePositions blockRows) (hc : col ∈ sidePositions blockCols) :
    ∃ f, t.formula row col = .ok f ∧ ∀ w ∈ f, w.row ≤ rows ∧ w.col ≤ cols := by
  obtain ⟨block, hblock, h⟩ := bind_eq_ok.1 h
  obtain ⟨cells, hcells, hrow⟩ := exists_of_mapM_eq_ok hblock hr
  obtain ⟨f, hf, hcell⟩ := exists_of_mapM_eq_ok hrow hc
  dsimp only at h
  split at h
  · next n m hrows hcols =>
    cases h
    refine ⟨f, hcell, fun w hw => ?_⟩
    have hmem : w ∈ block.flatten.flatten :=
      List.mem_flatten_of_mem (List.mem_flatten_of_mem hcells hf) hw
    exact ⟨(greatest?_eq_some.1 hrows).2 _ (List.mem_map_of_mem hmem),
      (greatest?_eq_some.1 hcols).2 _ (List.mem_map_of_mem hmem)⟩
  · cases h

theorem Positive.of_formula {t : RebasingTable} (ht : t.Positive) {row col : ℤ} {f : Formula}
    (h : t.formula row col = .ok f) : ∀ w ∈ f, 1 ≤ w.row ∧ 1 ≤ w.col := by
  unfold formula at h
  split at h
  · next f' hlookup =>
    cases h
    obtain ⟨before, after, heq, -⟩ := List.lookup_eq_some_iff.1 hlookup
    exact ht _ (heq ▸ List.mem_append_right _ List.mem_cons_self)
  · cases h

theorem Serves.positive {t : RebasingTable} (ht : t.Serves) : t.Positive :=
  fun p hp w hw => ⟨((ht.fits p hp).2 w hw).1, ((ht.fits p hp).2 w hw).2.1⟩

/-- The greatest of the numbers of some entries is that of one of them. -/
theorem exists_greatest {fs : List Formula} {w : WeightedEntry} (hw : w ∈ fs.flatten)
    (number : WeightedEntry → ℤ) :
    ∃ w' ∈ fs.flatten, greatest? (fs.flatten.map number) = some (number w') := by
  cases h : greatest? (fs.flatten.map number) with
  | none =>
    rw [greatest?_eq_max?, List.max?_eq_none_iff, List.map_eq_nil_iff] at h
    rw [h] at hw
    cases hw
  | some k =>
    obtain ⟨w', hw', hk⟩ := List.mem_map.1 (greatest?_eq_some.1 h).1
    exact ⟨w', hw', by rw [hk]⟩

/-- An entry of the formula of a cell of a block. -/
def Refers (t : RebasingTable) (blockRows blockCols : ℕ) (w : WeightedEntry) : Prop :=
  ∃ row ∈ sidePositions blockRows, ∃ col ∈ sidePositions blockCols, ∃ f,
    t.formula row col = .ok f ∧ w ∈ f

theorem refers_iff_mem_flatten {t : RebasingTable} {blockRows blockCols : ℕ} {f : ℤ → ℤ → Formula}
    (hf : ∀ row ∈ sidePositions blockRows, ∀ col ∈ sidePositions blockCols,
      t.formula row col = .ok (f row col)) {w : WeightedEntry} :
    t.Refers blockRows blockCols w ↔ w ∈ (matrixOf blockRows blockCols f).flatten.flatten := by
  simp only [matrixOf, List.mem_flatten, List.mem_map]
  constructor
  · rintro ⟨row, hr, col, hc, g, hg, hw⟩
    obtain rfl : f row col = g := Except.ok.inj ((hf row hr col hc).symm.trans hg)
    exact ⟨_, ⟨_, ⟨row, hr, rfl⟩, List.mem_map_of_mem hc⟩, hw⟩
  · rintro ⟨_, ⟨_, ⟨row, hr, rfl⟩, hcell⟩, hw⟩
    obtain ⟨col, hc, rfl⟩ := List.mem_map.1 hcell
    exact ⟨row, hr, col, hc, _, hf row hr col hc, hw⟩

/-- A block that refers to an entry has an extent, the row of one of its entries and the column of
one. -/
theorem exists_rawExtent {t : RebasingTable} {blockRows blockCols : ℕ}
    (hblock : ∀ row ∈ sidePositions blockRows, ∀ col ∈ sidePositions blockCols,
      ∃ f, t.formula row col = .ok f) {w : WeightedEntry} (hw : t.Refers blockRows blockCols w) :
    ∃ w₁ w₂, t.Refers blockRows blockCols w₁ ∧ t.Refers blockRows blockCols w₂ ∧
      t.rawExtent blockRows blockCols = .ok (w₁.row, w₂.col) := by
  choose! f hf using hblock
  have hformulas : t.block blockRows blockCols = .ok (matrixOf blockRows blockCols f) :=
    mapM_matrix_eq_ok hf
  have hmem := (refers_iff_mem_flatten hf).1 hw
  obtain ⟨w₁, hw₁, hrows⟩ := exists_greatest hmem WeightedEntry.row
  obtain ⟨w₂, hw₂, hcols⟩ := exists_greatest hmem WeightedEntry.col
  refine ⟨w₁, w₂, (refers_iff_mem_flatten hf).2 hw₁, (refers_iff_mem_flatten hf).2 hw₂, ?_⟩
  rw [rawExtent, hformulas]
  simp only [bind, Except.bind, hrows, hcols]

theorem Serves.fitsRaw {t : RebasingTable} (ht : t.Serves) (c : ShellPair) : t.FitsRaw c := by
  have hrange : ∀ w, t.Refers c.basisSizes.1 c.basisSizes.2 w →
      w.row ∈ sidePositions c.rawSizes.1 ∧ w.col ∈ sidePositions c.rawSizes.2 := by
    rintro w ⟨row, hr, col, hc, f, hf, hw⟩
    obtain ⟨g, hg, -, hrange, -⟩ := ht.exists_formula c hr hc
    obtain rfl : f = g := Except.ok.inj (hf.symm.trans hg)
    exact hrange w hw
  have hfirst : ∀ shell : Shell, (1 : ℤ) ∈ sidePositions shell.basisSize := by
    intro shell
    cases shell <;> decide
  obtain ⟨f, hf, hne, -⟩ := ht.exists_formula c (hfirst c.first) (hfirst c.second)
  obtain ⟨w, hw⟩ := List.exists_mem_of_ne_nil _ hne
  obtain ⟨w₁, w₂, hw₁, hw₂, hextent⟩ := exists_rawExtent
    (fun row hr col hc => (ht.exists_formula c hr hc).imp fun _ h => h.1)
    ⟨1, hfirst c.first, 1, hfirst c.second, f, hf, hw⟩
  exact ⟨w₁.row, w₂.col, hextent, (mem_sidePositions.1 (hrange w₁ hw₁).1).2,
    (mem_sidePositions.1 (hrange w₂ hw₂).2).2⟩

end RebasingTable

/-! ## References in a line -/

/-- Text in front of a reference: blanks, a sign and a multiplier. -/
def IsMultiplier (s : String) : Prop :=
  ∀ ch ∈ s.toList, ch ∈ [' ', '+', '-', '*'] ∨ ch.isDigit = true

instance (s : String) : Decidable (IsMultiplier s) := List.decidableBAll _ s.toList

theorem IsMultiplier.append {s t : String} (hs : IsMultiplier s) (ht : IsMultiplier t) :
    IsMultiplier (s ++ t) := by
  intro ch hch
  rw [String.toList_append, List.mem_append] at hch
  exact hch.elim (hs ch) (ht ch)

theorem WeightedEntry.isMultiplier_sign (w : WeightedEntry) : IsMultiplier w.sign := by
  unfold WeightedEntry.sign
  split <;> decide

theorem WeightedEntry.isMultiplier_factorLabel (w : WeightedEntry) :
    IsMultiplier w.factorLabel := by
  unfold WeightedEntry.factorLabel
  split
  · decide
  · have hdigits : IsMultiplier (toString w.weight.natAbs) := by
      intro ch hch
      rw [Nat.toString_eq_repr, Nat.toList_repr] at hch
      exact .inr (Nat.isDigit_of_mem_toDigits (by decide) (by decide) hch)
    exact (hdigits.append (by decide : IsMultiplier "*"))

/-- Behind its first entry a formula continues with a multiplier before every reference. -/
theorem foldl_appendEntry_eq (form : CellForm) (f : Formula) (text : String) :
    f.foldl (appendEntry form) text = text ++ String.join (f.map fun w =>
      (" " ++ w.sign ++ " " ++ w.factorLabel) ++ entryLabel form.source form.index w.row w.col) := by
  induction f generalizing text with
  | nil => simp
  | cons w f ih =>
    rw [List.foldl_cons, ih, List.map_cons, String.join_cons]
    simp only [appendEntry, WeightedEntry.magnitudeLabel, String.append_assoc]

/-- The text of a formula consists of its references, each behind a multiplier. -/
theorem exists_multipliers (form : CellForm) (f : Formula) :
    ∃ ms : List String, ms.length = f.length ∧ (∀ s ∈ ms, IsMultiplier s) ∧
      formulaLabel form f = String.join (List.zipWith (· ++ ·) ms
        (f.map fun w => entryLabel form.source form.index w.row w.col)) := by
  cases f with
  | nil => exact ⟨[], rfl, List.forall_mem_nil _, rfl⟩
  | cons first rest =>
    have hblank : IsMultiplier " " := by decide
    refine ⟨(" " ++ first.sign ++ first.factorLabel) ::
      rest.map fun w => " " ++ w.sign ++ " " ++ w.factorLabel, by simp, ?_, ?_⟩
    · rw [List.forall_mem_cons, List.forall_mem_map]
      exact ⟨(hblank.append first.isMultiplier_sign).append first.isMultiplier_factorLabel,
        fun w _ => ((hblank.append w.isMultiplier_sign).append hblank).append
          w.isMultiplier_factorLabel⟩
    · have htext : formulaLabel form (first :: rest) =
          rest.foldl (appendEntry form) (" " ++ first.sign ++ first.magnitudeLabel form) := by
        rw [formulaLabel_cons, ← foldl_appendEntry_append, ← String.append_assoc]
      rw [htext, foldl_appendEntry_eq, WeightedEntry.magnitudeLabel, ← String.append_assoc,
        List.map_cons, List.zipWith_cons_cons, String.join_cons, List.zipWith_map,
        List.zipWith_self]

/-! ## The statement -/

/-- The lines assign to the labels of some places, to one each in their order, and no two
places have the same label. -/
structure AssignsOnce {α : Type} (op : String) (label : α → String) (places : List α)
    (lines : List String) : Prop where
  lines : List.Forall₂ (fun p line => ∃ text, line = label p ++ op ++ text) places lines
  nodup : (places.map label).Nodup

/-- A scalar family has no axis, a vector family axes that all differ. -/
structure Family.ProperAxes (f : Family) : Prop where
  nodup : f.axes.Nodup
  uniform : f.axes = [none] ∨ none ∉ f.axes

/-- The leading index in the lines of a basis block. -/
def Family.lead (f : Family) (d : Dialect) : Option String :=
  if f.isVector then some d.axisIndex else none

/-- A reference to a raw entry in these lines, at an axis: the leading index, if there is one,
is that of the axis. -/
def Family.referenceAt (f : Family) (d : Dialect) (axis : Option ℤ) (row col : ℤ) : String :=
  indexedEntry f.rawName ((f.lead d).bind fun _ => axisLead axis) row col

/-- The line assigns to a basis entry the sum of the references to some raw entries, each
behind a multiplier. -/
def Family.SumsUp (f : Family) (d : Dialect) (cell : ℤ × ℤ) (entries : List (ℤ × ℤ))
    (line : String) : Prop :=
  ∃ multipliers : List String, multipliers.length = entries.length ∧
    (∀ s ∈ multipliers, IsMultiplier s) ∧
    line = indexedEntry f.basisName (f.lead d) cell.1 cell.2 ++ Text.strippedEnd d.assignment ++
      String.join (List.zipWith (· ++ ·) multipliers
        (entries.map fun p => indexedEntry f.rawName (f.lead d) p.1 p.2))

/-- The labels of the raw entries of a pair of shells. -/
def Family.rawLabels (f : Family) (c : ShellPair) : List String :=
  (f.entryOrder c).map fun p => matrixLabel f.rawName p.1 p.2.1 p.2.2

/-- The text assigns to every raw entry once, then to every basis entry once, and at every
axis what it sums up for a basis entry are raw entries that it assigned to. -/
structure Family.AssignsBeforeUse (f : Family) (c : ShellPair) (d : Dialect) (t : CaseText) :
    Prop where
  raw : AssignsOnce d.assignment
    (fun p : Option ℤ × ℤ × ℤ => matrixLabel f.rawName p.1 p.2.1 p.2.2) (f.entryOrder c) t.raw
  raw_label : ∀ axis o1 o2, (axis, o1, o2) ∈ f.entryOrder c →
    f.rawLabel o1 o2 axis = .ok (matrixLabel f.rawName axis o1 o2)
  raw_places : ∀ axis o1 o2, (axis, o1, o2) ∈ f.entryOrder c ↔
    axis ∈ f.axes ∧ (1 ≤ o1 ∧ o1 ≤ c.rawSizes.1) ∧ (1 ≤ o2 ∧ o2 ≤ c.rawSizes.2)
  rebased : AssignsOnce (Text.strippedEnd d.assignment)
    (fun p : ℤ × ℤ => indexedEntry f.basisName (f.lead d) p.1 p.2)
    (blockOrder c.basisSizes.1 c.basisSizes.2) t.rebased
  rebased_places : ∀ b1 b2, (b1, b2) ∈ blockOrder c.basisSizes.1 c.basisSizes.2 ↔
    (1 ≤ b1 ∧ b1 ≤ c.basisSizes.1) ∧ (1 ≤ b2 ∧ b2 ≤ c.basisSizes.2)
  uses : List.Forall₂ (fun cell line => ∃ entries, f.SumsUp d cell entries line ∧
      ∀ p ∈ entries, ∀ axis ∈ f.axes, f.referenceAt d axis p.1 p.2 ∈ f.rawLabels c)
    (blockOrder c.basisSizes.1 c.basisSizes.2) t.rebased

/-! ## The text of a case -/

variable {f : Family} {c : ShellPair} {d : Dialect}

theorem entryLabel_lead (hd : d.axisIndex ≠ "") (matrix : String) (row col : ℤ) :
    entryLabel matrix (f.cellForm d).index row col = indexedEntry matrix (f.lead d) row col := by
  unfold Family.cellForm Family.lead
  dsimp only
  split
  · exact entryLabel_some matrix hd row col
  · exact entryLabel_none matrix row col

/-- At an axis of the family a reference is the label of the raw entry at that axis. -/
theorem Family.ProperAxes.referenceAt_eq (hf : f.ProperAxes) {axis : Option ℤ}
    (haxis : axis ∈ f.axes) (row col : ℤ) :
    f.referenceAt d axis row col = matrixLabel f.rawName axis row col := by
  have hlead : ((f.lead d).bind fun _ => axisLead axis) = axisLead axis := by
    rcases hf.uniform with hscalar | hvector
    · rw [hscalar, List.mem_singleton] at haxis
      subst haxis
      cases f.lead d <;> rfl
    · have hne : f.axes ≠ [none] := fun h => hvector (h ▸ List.mem_singleton_self none)
      have hisVector : f.isVector = true := bne_iff_ne.2 hne
      rw [Family.lead, if_pos hisVector, Option.bind_some]
  rw [Family.referenceAt, hlead, matrixLabel_eq_indexedEntry]

/-- The line of a basis entry sums up the raw entries of its formula. -/
theorem sumsUp_rebasedLine (hd : d.axisIndex ≠ "") (formula : Formula) (row col : ℤ) :
    f.SumsUp d (row, col) (formula.map fun w => (w.row, w.col))
      (rebasedLine (f.cellForm d) formula row col) := by
  obtain ⟨ms, hlength, hms, htext⟩ := exists_multipliers (f.cellForm d) formula
  refine ⟨ms, by rw [hlength, List.length_map], hms, ?_⟩
  rw [rebasedLine, htext, List.map_map]
  simp only [entryLabel_lead hd]
  rfl

/-- A raw entry that has a text has a label, and the text assigns to it. -/
theorem of_entryText_eq_ok {axis : Option ℤ} {o1 o2 : ℤ} {line : String}
    (h : f.entryText d o1 o2 axis = .ok line) :
    f.rawLabel o1 o2 axis = .ok (matrixLabel f.rawName axis o1 o2) ∧
      ∃ text, line = matrixLabel f.rawName axis o1 o2 ++ d.assignment ++ text := by
  obtain ⟨e, -, h⟩ := bind_eq_ok.1 h
  obtain ⟨label, hlabel, h⟩ := bind_eq_ok.1 h
  obtain ⟨text, -, h⟩ := bind_eq_ok.1 h
  rw [mapError_eq_ok] at hlabel
  obtain ⟨-, rfl⟩ := (writes_rawLabel f o1 o2 axis).eq_ok_iff.1 hlabel
  cases h
  exact ⟨hlabel, text, rfl⟩

theorem raw_assignsOnce (hf : f.ProperAxes) {lines : List String}
    (h : (f.entryOrder c).mapM (fun (axis, o1, o2) => f.entryText d o1 o2 axis) = .ok lines) :
    AssignsOnce d.assignment (fun p : Option ℤ × ℤ × ℤ => matrixLabel f.rawName p.1 p.2.1 p.2.2)
      (f.entryOrder c) lines := by
  constructor
  · exact (mapM_eq_ok_iff.1 h).imp fun p line hline => (of_entryText_eq_ok hline).2
  · refine (nodup_entryOrder hf.nodup c).map_on fun p _ q _ hpq => ?_
    obtain ⟨haxis, hr, hc⟩ := matrixLabel_injective_of_name hpq
    exact Prod.ext haxis (Prod.ext hr hc)

theorem rebased_assignsOnce {rows cols : ℕ} {lines : List String}
    (h : List.Forall₂ (fun cell line => ∃ entries, f.SumsUp d cell entries line)
      (blockOrder rows cols) lines) :
    AssignsOnce (Text.strippedEnd d.assignment)
      (fun p : ℤ × ℤ => indexedEntry f.basisName (f.lead d) p.1 p.2) (blockOrder rows cols)
      lines := by
  constructor
  · refine h.imp fun cell line hline => ?_
    obtain ⟨_, _, -, -, hline⟩ := hline
    exact ⟨_, hline⟩
  · refine (nodup_blockOrder rows cols).map_on fun p _ q _ hpq => ?_
    obtain ⟨hr, hc⟩ := indexedEntry_injective hpq
    exact Prod.ext hr hc

/-- The re-based lines of a block whose extent fits, unless a weight is too long. -/
theorem exists_rebased (hf : f.ProperAxes) (hpos : f.table.Positive) (hfit : f.table.FitsRaw c)
    (hd : d.axisIndex ≠ "") :
    (∃ lines, f.table.render (f.cellForm d) c.basisSizes.1 c.basisSizes.2 = .ok lines ∧
      List.Forall₂ (fun cell line => ∃ entries, f.SumsUp d cell entries line ∧
          ∀ p ∈ entries, ∀ axis ∈ f.axes, f.referenceAt d axis p.1 p.2 ∈ f.rawLabels c)
        (blockOrder c.basisSizes.1 c.basisSizes.2) lines) ∨
    ∃ w, f.table.Refers c.basisSizes.1 c.basisSizes.2 w ∧ ¬ Text.Writable w.weight ∧
      f.table.render (f.cellForm d) c.basisSizes.1 c.basisSizes.2 =
        .error (.integer .tooLongToWrite) := by
  obtain ⟨rows, cols, hextent, hrows, hcols⟩ := hfit
  have hformula : ∀ row ∈ sidePositions c.basisSizes.1, ∀ col ∈ sidePositions c.basisSizes.2,
      ∃ formula, f.table.formula row col = .ok formula ∧
        ∀ w ∈ formula, w.row ≤ rows ∧ w.col ≤ cols :=
    fun row hr col hc => RebasingTable.exists_formula_of_rawExtent hextent hr hc
  choose! formula hformula hle using hformula
  have hrange : ∀ row ∈ sidePositions c.basisSizes.1, ∀ col ∈ sidePositions c.basisSizes.2,
      (formula row col).InRange c.rawSizes.1 c.rawSizes.2 := by
    intro row hr col hc w hw
    obtain ⟨hlow1, hlow2⟩ := hpos.of_formula (hformula row hr col hc) w hw
    obtain ⟨hhigh1, hhigh2⟩ := hle row hr col hc w hw
    exact ⟨mem_sidePositions.2 ⟨hlow1, hhigh1.trans hrows⟩,
      mem_sidePositions.2 ⟨hlow2, hhigh2.trans hcols⟩⟩
  have hfirst : Text.Writable c.basisSizes.1 := writable_basisSize c.first
  have hsecond : Text.Writable c.basisSizes.2 := writable_basisSize c.second
  by_cases hwritable : ∀ row ∈ sidePositions c.basisSizes.1, ∀ col ∈ sidePositions c.basisSizes.2,
      (formula row col).Writable
  · refine .inl ⟨_, RebasingTable.render_eq_ok hfirst hsecond hformula hwritable, ?_⟩
    rw [RebasingTable.linesOf, List.forall₂_map_right_iff, List.forall₂_same]
    intro p hp
    obtain ⟨hr, hc⟩ := mem_blockOrder.1 hp
    refine ⟨_, sumsUp_rebasedLine hd (formula p.1 p.2) p.1 p.2, ?_⟩
    rw [List.forall_mem_map]
    intro w hw axis haxis
    have hmem : (axis, w.row, w.col) ∈ f.entryOrder c :=
      mem_entryOrder.2 ⟨haxis, hrange _ hr _ hc w hw⟩
    rw [hf.referenceAt_eq haxis]
    exact List.mem_map.2 ⟨_, hmem, rfl⟩
  · simp only [Formula.Writable, not_forall] at hwritable
    obtain ⟨row, hr, col, hc, w, hw, hlong⟩ := hwritable
    -- rows and columns lie in the raw block, so it is the weight that is too long
    have hweight : ¬ Text.Writable w.weight := fun h => by
      obtain ⟨hwr, hwc⟩ := hrange row hr col hc w hw
      exact hlong ⟨h, writable_of_mem_sidePositions hwr (writable_rawSize c.first),
        writable_of_mem_sidePositions hwc (writable_rawSize c.second)⟩
    exact .inr ⟨w, ⟨row, hr, col, hc, _, hformula row hr col hc, hw⟩, hweight,
      RebasingTable.render_eq_error hfirst hsecond hformula hr hc fun h => hlong (h w hw)⟩

/-- **Every branch assigns before it uses**, once to each entry: for all families whose axes differ,
whatever their expander, names and table, if the extent of the block fits the raw block. The text
fails only where a raw entry has none or a weight is too long. Both tables fit for every pair of
shells. -/
theorem assigned_before_use (hf : f.ProperAxes) (hpos : f.table.Positive)
    (hfit : f.table.FitsRaw c) (hd : d.axisIndex ≠ "") :
    ((∃ t, f.caseText c d = .ok t ∧ f.AssignsBeforeUse c d t) ∨
      (∃ axis o1 o2 e, (axis, o1, o2) ∈ f.entryOrder c ∧
        f.entryText d o1 o2 axis = .error e ∧ f.caseText c d = .error e) ∨
      ∃ w, f.table.Refers c.basisSizes.1 c.basisSizes.2 w ∧ ¬ Text.Writable w.weight ∧
        f.caseText c d = .error (.rebasing (.integer .tooLongToWrite))) ∧
    ∀ t ∈ [RebasingTable.nuclear, RebasingTable.kineticMomentum],
      t.Positive ∧ ∀ c, t.FitsRaw c := by
  refine ⟨?_, ?_⟩
  · cases hraw : (f.entryOrder c).mapM (fun (axis, o1, o2) => f.entryText d o1 o2 axis) with
    | error e =>
      obtain ⟨⟨axis, o1, o2⟩, hmem, he⟩ := exists_of_mapM_eq_error hraw
      refine .inr (.inl ⟨axis, o1, o2, e, hmem, he, ?_⟩)
      rw [Family.caseText, hraw]
      rfl
    | ok raw =>
      rcases exists_rebased hf hpos hfit hd with ⟨rebased, hrender, huses⟩ | ⟨w, hw, hlong, hrender⟩
      · have hsums : List.Forall₂ (fun cell line => ∃ entries, f.SumsUp d cell entries line)
            (blockOrder c.basisSizes.1 c.basisSizes.2) rebased :=
          huses.imp fun cell line h => h.imp fun entries h => h.1
        refine .inl ⟨⟨f.name, c, raw, rebased⟩, ?_, raw_assignsOnce hf hraw, ?_, ?_,
          rebased_assignsOnce hsums, ?_, huses⟩
        · rw [Family.caseText, hraw, hrender]
          rfl
        · intro axis o1 o2 hmem
          obtain ⟨line, -, hline⟩ := exists_of_mapM_eq_ok hraw hmem
          exact (of_entryText_eq_ok hline).1
        · intro axis o1 o2
          rw [mem_entryOrder, mem_sidePositions, mem_sidePositions]
        · intro b1 b2
          rw [mem_blockOrder, mem_sidePositions, mem_sidePositions]
      · refine .inr (.inr ⟨w, hw, hlong, ?_⟩)
        rw [Family.caseText, hraw, hrender]
        rfl
  · simp only [List.forall_mem_cons]
    exact ⟨⟨serves_nuclear.positive, serves_nuclear.fitsRaw⟩,
      ⟨serves_kineticMomentum.positive, serves_kineticMomentum.fitsRaw⟩, List.forall_mem_nil _⟩

/-- The momentum lines of a p shell and a d shell, which all have a text. -/
theorem assigned_before_use_momentum :
    Family.momentum.ProperAxes ∧ Family.momentum.table.Positive ∧
      Family.momentum.table.FitsRaw ⟨.p, .d⟩ ∧ Dialect.standard.axisIndex ≠ "" ∧
      ∃ t, Family.momentum.caseText ⟨.p, .d⟩ .standard = .ok t ∧
        Family.momentum.AssignsBeforeUse ⟨.p, .d⟩ .standard t := by
  have haxes : Family.momentum.ProperAxes := ⟨by decide, .inr (by decide)⟩
  have hpos : Family.momentum.table.Positive := serves_kineticMomentum.positive
  have hfit : Family.momentum.table.FitsRaw ⟨.p, .d⟩ :=
    ⟨4, 10, by decide +kernel, by decide, by decide⟩
  have hindex : Dialect.standard.axisIndex ≠ "" := by decide
  refine ⟨haxes, hpos, hfit, hindex, ?_⟩
  rcases (assigned_before_use haxes hpos hfit hindex).1 with
    h | ⟨axis, o1, o2, e, hmem, he, -⟩ | ⟨w, ⟨row, hr, col, hc, g, hg, hw⟩, hlong, -⟩
  · exact h
  · obtain ⟨haxis, h1, h2⟩ := mem_entryOrder.1 hmem
    obtain ⟨line, hline⟩ := exists_entryText .momentum .standard haxis
      (@bounds_of_mem_sidePositions .p _ h1) (@bounds_of_mem_sidePositions .d _ h2)
    have hok : Family.momentum.entryText .standard o1 o2 axis = .ok line := hline
    rw [hok] at he
    cases he
  · obtain ⟨g', hg', -, -, hwritable⟩ := serves_kineticMomentum.exists_formula ⟨.p, .d⟩ hr hc
    obtain rfl : g' = g := Except.ok.inj (hg'.symm.trans hg)
    exact absurd (hwritable w hw).weight hlong

/-! ## Families without such a text -/

/-- The nuclear family with the given axes. -/
def Family.along (axes : List (Option ℤ)) : Family := { Family.nuclear with axes }

/-- The table of one cell, with one entry that has a weight. -/
def RebasingTable.single (weight : ℤ) : RebasingTable :=
  ⟨"single", "", [((1, 1), [⟨weight, 1, 1⟩])]⟩

/-- The nuclear family with a basis of one entry that has a weight. -/
def Family.weighted (weight : ℤ) : Family := { Family.nuclear with table := .single weight }

namespace RebasingTable

variable {weight : ℤ}

theorem formula_single {row col : ℤ} (hr : row ∈ sidePositions (1 : ℕ))
    (hc : col ∈ sidePositions (1 : ℕ)) :
    (single weight).formula row col = .ok [⟨weight, 1, 1⟩] := by
  obtain rfl := List.mem_singleton.1 hr
  obtain rfl := List.mem_singleton.1 hc
  rfl

theorem render_single (form : CellForm) (h : ¬ Text.Writable weight) :
    (single weight).render form (1 : ℕ) (1 : ℕ) = .error (.integer .tooLongToWrite) := by
  have hone : (1 : ℤ) ∈ sidePositions (1 : ℕ) := List.mem_singleton_self 1
  refine render_eq_error (f := fun _ _ => [⟨weight, 1, 1⟩]) (writable_basisSize .s)
    (writable_basisSize .s) (fun row hr col hc => formula_single hr hc) hone hone fun hw => ?_
  exact h (hw _ (List.mem_singleton_self _)).weight

end RebasingTable

theorem along_fits (axes : List (Option ℤ)) :
    (Family.along axes).table.Positive ∧ (Family.along axes).table.FitsRaw ⟨.s, .s⟩ :=
  ⟨serves_nuclear.positive, serves_nuclear.fitsRaw ⟨.s, .s⟩⟩

theorem weighted_fits (weight : ℤ) :
    (Family.weighted weight).table.Positive ∧ (Family.weighted weight).table.FitsRaw ⟨.s, .s⟩ := by
  constructor
  · intro p hp w hw
    obtain rfl := List.mem_singleton.1 hp
    obtain rfl := List.mem_singleton.1 hw
    exact ⟨le_refl 1, le_refl 1⟩
  · exact ⟨1, 1, rfl, le_refl 1, le_refl 1⟩

theorem nuclear_axes : none ∈ FamilyName.nuclear.family.axes := List.mem_singleton_self none

theorem first_orbital : (1 : ℤ) ≤ 1 ∧ (1 : ℤ) ≤ 20 := by decide

theorem caseText_along_of_not_writable {a : ℤ} (ha : ¬ Text.Writable (a + 1)) :
    (Family.along [some a]).caseText ⟨.s, .s⟩ .standard =
      .error (.number (.integer .tooLongToWrite)) := by
  obtain ⟨e, he, -⟩ := exists_expand .nuclear nuclear_axes first_orbital first_orbital
  have hexpand : (Family.along [some a]).expand 1 1 (some a) = .ok e := he
  have hlabel := (writes_rawLabel (Family.along [some a]) 1 1 (some a)).eq_error fun h =>
    ha (h.1 a rfl)
  have hentry : (Family.along [some a]).entryText .standard 1 1 (some a) =
      .error (.number (.integer .tooLongToWrite)) := by
    simp [Family.entryText, hexpand, hlabel, Except.mapError, bind, Except.bind]
  have horder : (Family.along [some a]).entryOrder ⟨.s, .s⟩ = [(some a, 1, 1)] := rfl
  simp [Family.caseText, horder, hentry, bind, Except.bind]

theorem caseText_weighted_of_not_writable {weight : ℤ} (h : ¬ Text.Writable weight) :
    (Family.weighted weight).caseText ⟨.s, .s⟩ .standard =
      .error (.rebasing (.integer .tooLongToWrite)) := by
  obtain ⟨line, hline⟩ :=
    exists_entryText .nuclear .standard nuclear_axes first_orbital first_orbital
  have hraw : (Family.weighted weight).entryText .standard 1 1 none = .ok line := hline
  have horder : (Family.weighted weight).entryOrder ⟨.s, .s⟩ = [(none, 1, 1)] := rfl
  have hblock : (Family.weighted weight).table.render ((Family.weighted weight).cellForm .standard)
      (ShellPair.mk .s .s).basisSizes.1 (ShellPair.mk .s .s).basisSizes.2 =
        .error (.integer .tooLongToWrite) := RebasingTable.render_single _ h
  simp [Family.caseText, horder, hraw, hblock, Except.mapError, bind, Except.bind, pure,
    Except.pure]

/-- Axes that come twice repeat labels, and an axis or a weight that is too long leaves the
branch without a text. -/
theorem families_without_assignments :
    (((Family.along [some 0, some 0]).table.Positive ∧
        (Family.along [some 0, some 0]).table.FitsRaw ⟨.s, .s⟩) ∧
      ¬ ((Family.along [some 0, some 0]).rawLabels ⟨.s, .s⟩).Nodup) ∧
    (((Family.along [some (10 ^ Text.digitLimit - 1)]).table.Positive ∧
        (Family.along [some (10 ^ Text.digitLimit - 1)]).table.FitsRaw ⟨.s, .s⟩) ∧
      (Family.along [some (10 ^ Text.digitLimit - 1)]).caseText ⟨.s, .s⟩ .standard =
        .error (.number (.integer .tooLongToWrite))) ∧
    ((Family.weighted (10 ^ Text.digitLimit)).table.Positive ∧
        (Family.weighted (10 ^ Text.digitLimit)).table.FitsRaw ⟨.s, .s⟩) ∧
      (Family.weighted (10 ^ Text.digitLimit)).caseText ⟨.s, .s⟩ .standard =
        .error (.rebasing (.integer .tooLongToWrite)) := by
  refine ⟨⟨along_fits _, ?_⟩, ⟨along_fits _, caseText_along_of_not_writable ?_⟩,
    weighted_fits _, caseText_weighted_of_not_writable Text.not_writable_pow⟩
  · have hlabels : (Family.along [some 0, some 0]).rawLabels ⟨.s, .s⟩ =
        [matrixLabel "wo" (some 0) 1 1, matrixLabel "wo" (some 0) 1 1] := rfl
    rw [hlabels]
    simp
  · rw [sub_add_cancel]
    exact Text.not_writable_pow

end GaussianIntegrals
