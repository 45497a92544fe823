/-
  Re-basing as text and as numbers: the line of a basis entry denotes the weighted sum of its
  formula, and the exact basis block holds the same sums. In both tables every cell of a block
  has a formula, and no formula refers beyond the raw block of the same shells.
-/
import GaussianIntegrals.Family.Values
import GaussianIntegrals.Proofs.Lists
import GaussianIntegrals.Proofs.MatrixLabels

namespace GaussianIntegrals

open Code

/-! ## Blocks -/

theorem mem_sidePositions {k : ℤ} {n : ℕ} : k ∈ sidePositions n ↔ 1 ≤ k ∧ k ≤ n := by
  simp only [sidePositions, Int.toNat_natCast, List.mem_map, List.mem_range]
  constructor
  · rintro ⟨m, hm, rfl⟩
    omega
  · rintro ⟨h1, hn⟩
    exact ⟨k.toNat - 1, by omega, by omega⟩

/-- If the last position is writable, all are. -/
theorem writable_of_mem_sidePositions {k : ℤ} {n : ℕ} (h : k ∈ sidePositions n)
    (hn : Text.Writable n) : Text.Writable k := by
  rw [mem_sidePositions] at h
  exact hn.of_natAbs_le (by omega)

theorem nodup_sidePositions (n : ℕ) : (sidePositions n).Nodup := by
  refine List.Nodup.map (fun a b h => ?_) List.nodup_range
  simpa using h

theorem getElem?_sidePositions {k n : ℕ} (h : k < n) :
    (sidePositions n)[k]? = some ((k : ℤ) + 1) := by
  simp [sidePositions, h]

theorem getElem?_sidePositions_of_mem {k : ℤ} {n : ℕ} (h : k ∈ sidePositions n) :
    (sidePositions n)[(k - 1).toNat]? = some k := by
  rw [mem_sidePositions] at h
  rw [getElem?_sidePositions (by omega)]
  congr 1
  omega

/-- The matrix with the given entries, by row and column counted from 1. -/
def matrixOf {K : Type} (rows cols : ℕ) (x : ℤ → ℤ → K) : List (List K) :=
  (sidePositions rows).map fun row => (sidePositions cols).map fun col => x row col

/-- The entry of a matrix at a row and a column counted from 0. -/
def matrixEntry {K : Type} (m : List (List K)) (i j : ℕ) : Option K := m[i]?.bind fun r => r[j]?

theorem matrixEntry_matrixOf {K : Type} {rows cols : ℕ} (x : ℤ → ℤ → K) {i j : ℕ} (hi : i < rows)
    (hj : j < cols) : matrixEntry (matrixOf rows cols x) i j = some (x (i + 1) (j + 1)) := by
  simp [matrixEntry, matrixOf, getElem?_sidePositions hi, getElem?_sidePositions hj]

theorem getD_matrixOf {K : Type} {rows cols : ℕ} (x : ℤ → ℤ → K) {row col : ℤ}
    (hr : row ∈ sidePositions rows) (hc : col ∈ sidePositions cols) (d : K) :
    ((matrixOf rows cols x).getD (row - 1).toNat []).getD (col - 1).toNat d = x row col := by
  rw [List.getD_eq_getElem?_getD, List.getD_eq_getElem?_getD, matrixOf, List.getElem?_map,
    getElem?_sidePositions_of_mem hr, Option.map_some, Option.getD_some, List.getElem?_map,
    getElem?_sidePositions_of_mem hc, Option.map_some, Option.getD_some]

theorem map_matrixOf {K L : Type} {rows cols : ℕ} (g : K → L) (x : ℤ → ℤ → K) :
    (matrixOf rows cols x).map (·.map g) = matrixOf rows cols fun row col => g (x row col) := by
  simp only [matrixOf, List.map_map, Function.comp_def]

theorem matrixOf_congr {K : Type} {rows cols : ℕ} {x y : ℤ → ℤ → K}
    (h : ∀ row ∈ sidePositions rows, ∀ col ∈ sidePositions cols, x row col = y row col) :
    matrixOf rows cols x = matrixOf rows cols y :=
  List.map_congr_left fun row hrow => List.map_congr_left fun col hcol => h row hrow col hcol

theorem mapM_matrix_eq_ok {ε K : Type} {rows cols : ℕ} {f : ℤ → ℤ → Except ε K} {x : ℤ → ℤ → K}
    (h : ∀ row ∈ sidePositions rows, ∀ col ∈ sidePositions cols, f row col = .ok (x row col)) :
    ((sidePositions rows).mapM fun row => (sidePositions cols).mapM fun col => f row col) =
      .ok (matrixOf rows cols x) :=
  mapM_eq_ok fun row hrow => mapM_eq_ok fun col hcol => h row hrow col hcol

/-! ## Weighted sums -/

/-- The weighted sum of a formula. -/
def Formula.value (entry : ℤ → ℤ → ℚ) (f : Formula) : ℚ :=
  (f.map fun w => (w.weight : ℚ) * entry w.row w.col).sum

theorem Formula.value_cons (entry : ℤ → ℤ → ℚ) (w : WeightedEntry) (f : Formula) :
    Formula.value entry (w :: f) = w.weight * entry w.row w.col + Formula.value entry f := by
  rw [Formula.value, List.map_cons, List.sum_cons, Formula.value]

theorem Formula.value_append (entry : ℤ → ℤ → ℚ) (f g : Formula) :
    Formula.value entry (f ++ g) = f.value entry + g.value entry := by
  rw [Formula.value, List.map_append, List.sum_append, Formula.value, Formula.value]

theorem Formula.value_perm {f g : Formula} (h : f.Perm g) (entry : ℤ → ℤ → ℚ) :
    f.value entry = g.value entry :=
  (h.map _).sum_eq

/-- The entries of a formula lie in a matrix. -/
def Formula.InRange (rows cols : ℕ) (f : Formula) : Prop :=
  ∀ w ∈ f, w.row ∈ sidePositions rows ∧ w.col ∈ sidePositions cols

theorem place_eq_ok {rows cols : ℕ} {w : WeightedEntry} (hr : w.row ∈ sidePositions rows)
    (hc : w.col ∈ sidePositions cols) :
    w.place rows cols = .ok ⟨w.weight, (w.row - 1).toNat, (w.col - 1).toNat⟩ := by
  rw [mem_sidePositions] at hr hc
  rw [WeightedEntry.place, position?_of_nonneg (by omega) (by omega),
    position?_of_nonneg (by omega) (by omega)]

theorem weightedSum_eq (entry : ℕ → ℕ → ℚ) (f : List PlacedEntry) (x : ℚ) :
    weightedSum x (fun acc w y => acc + w * y) entry f =
      x + (f.map fun w => (w.weight : ℚ) * entry w.row w.col).sum := by
  unfold weightedSum
  induction f generalizing x with
  | nil => simp
  | cons w f ih => rw [List.foldl_cons, ih, List.map_cons, List.sum_cons, add_assoc]

/-- The sum over the places of a formula. -/
theorem weightedSum_places (x : ℤ → ℤ → ℚ) (entry : ℕ → ℕ → ℚ) {f : Formula}
    (h : ∀ w ∈ f, entry (w.row - 1).toNat (w.col - 1).toNat = x w.row w.col) :
    weightedSum (0 : ℚ) (fun acc w y => acc + w * y) entry
      (f.map fun w => ⟨w.weight, (w.row - 1).toNat, (w.col - 1).toNat⟩) = f.value x := by
  rw [weightedSum_eq, zero_add, List.map_map]
  exact congrArg List.sum (List.map_congr_left fun w hw => by rw [Function.comp_apply, h w hw])

section Blocks

variable {t : RebasingTable} {rows cols blockRows blockCols : ℕ} {formula : ℤ → ℤ → Formula}

/-- Where the formulas of a block stay in the raw matrix, its entries all have places. -/
theorem placed_eq_ok (h : ∀ row ∈ sidePositions blockRows, ∀ col ∈ sidePositions blockCols,
      t.formula row col = .ok (formula row col) ∧ (formula row col).InRange rows cols) :
    t.placed blockRows blockCols rows cols =
      .ok (matrixOf blockRows blockCols fun row col => (formula row col).map fun w =>
        ⟨w.weight, (w.row - 1).toNat, (w.col - 1).toNat⟩) := by
  refine mapM_matrix_eq_ok fun row hrow col hcol => ?_
  obtain ⟨hf, hrange⟩ := h row hrow col hcol
  rw [hf]
  exact mapM_eq_ok fun w hw => place_eq_ok (hrange w hw).1 (hrange w hw).2

/-- The exact basis block holds the weighted sums of the raw entries. -/
theorem applyExact_eq_ok (x : ℤ → ℤ → ℚ)
    (h : ∀ row ∈ sidePositions blockRows, ∀ col ∈ sidePositions blockCols,
      t.formula row col = .ok (formula row col) ∧ (formula row col).InRange rows cols) :
    t.applyExact (matrixOf rows cols x) rows cols blockRows blockCols =
      .ok (matrixOf blockRows blockCols fun row col => (formula row col).value x) := by
  rw [RebasingTable.applyExact, placed_eq_ok h]
  refine congrArg Except.ok ((map_matrixOf _ _).trans (matrixOf_congr fun row hrow col hcol => ?_))
  refine weightedSum_places x _ fun w hw => ?_
  obtain ⟨hr, hc⟩ := (h row hrow col hcol).2 w hw
  exact getD_matrixOf x hr hc 0

end Blocks

/-! ## The text of a formula -/

section Text

variable {lookup : Reference → Option ℚ} {form : CellForm} {entry : ℤ → ℤ → ℚ}

/-- The text of an entry of the raw matrix denotes the entry. -/
def SourceDenotes (lookup : Reference → Option ℚ) (form : CellForm) (entry : ℤ → ℤ → ℚ)
    (w : WeightedEntry) : Prop :=
  Denotes lookup .term (entryLabel form.source form.index w.row w.col).toList (entry w.row w.col)

theorem denotes_magnitude {w : WeightedEntry} (h : SourceDenotes lookup form entry w) :
    Denotes lookup .term (w.magnitudeLabel form).toList (w.weight.natAbs * entry w.row w.col) := by
  unfold WeightedEntry.magnitudeLabel WeightedEntry.factorLabel
  split
  · next h1 =>
    unfold SourceDenotes at h
    simpa [h1] using h
  · have hnum : Denotes lookup .term (Nat.toDigits 10 w.weight.natAbs) w.weight.natAbs :=
      (Denotes.numeral (numeral?_toDigits w.weight.natAbs)).factor.term
    simpa [Nat.toString_eq_repr, Nat.toList_repr] using hnum.mul h

theorem weight_cast_of_neg {k : ℤ} (h : k < 0) : (k : ℚ) = -(k.natAbs : ℚ) := by
  rw [Nat.cast_natAbs, abs_of_neg h, Int.cast_neg, neg_neg]

theorem weight_cast_of_nonneg {k : ℤ} (h : ¬ k < 0) : (k : ℚ) = (k.natAbs : ℚ) := by
  rw [Nat.cast_natAbs, abs_of_nonneg (not_lt.1 h)]

/-- One more entry of a formula. -/
def appendEntry (form : CellForm) (text : String) (w : WeightedEntry) : String :=
  text ++ " " ++ w.sign ++ " " ++ w.magnitudeLabel form

theorem denotes_appendEntry {w : WeightedEntry} {s : String} {x : ℚ}
    (hs : Denotes lookup .sum s.toList x) (hw : SourceDenotes lookup form entry w) :
    Denotes lookup .sum (appendEntry form s w).toList (x + w.weight * entry w.row w.col) := by
  have hm := denotes_magnitude hw
  unfold appendEntry WeightedEntry.sign
  split
  · next hneg =>
    rw [weight_cast_of_neg hneg, neg_mul, ← sub_eq_add_neg]
    simpa using hs.sub hm
  · next hpos =>
    rw [weight_cast_of_nonneg hpos]
    simpa using hs.add hm

theorem denotes_firstEntry {w : WeightedEntry} (hw : SourceDenotes lookup form entry w) :
    Denotes lookup .sum (w.sign ++ w.magnitudeLabel form).toList (w.weight * entry w.row w.col) := by
  have hm := denotes_magnitude hw
  unfold WeightedEntry.sign
  split
  · next hneg =>
    rw [weight_cast_of_neg hneg, neg_mul]
    simpa using hm.neg.sum
  · next hpos =>
    rw [weight_cast_of_nonneg hpos]
    simpa using hm.pos.sum

theorem denotes_foldl_appendEntry {f : Formula} {s : String} {x : ℚ}
    (hs : Denotes lookup .sum s.toList x) (hf : ∀ w ∈ f, SourceDenotes lookup form entry w) :
    Denotes lookup .sum (f.foldl (appendEntry form) s).toList (x + f.value entry) := by
  induction f generalizing s x with
  | nil => simpa [Formula.value] using hs
  | cons w f ih =>
    rw [List.forall_mem_cons] at hf
    rw [List.foldl_cons, Formula.value_cons, ← add_assoc]
    exact ih (denotes_appendEntry hs hf.1) hf.2

theorem foldl_appendEntry_append (f : Formula) (s t : String) :
    f.foldl (appendEntry form) (s ++ t) = s ++ f.foldl (appendEntry form) t := by
  induction f generalizing t with
  | nil => rfl
  | cons w f ih =>
    have happend : appendEntry form (s ++ t) w = s ++ appendEntry form t w := by
      simp only [appendEntry, String.append_assoc]
    rw [List.foldl_cons, List.foldl_cons, happend, ih]

theorem formulaLabel_cons (w : WeightedEntry) (f : Formula) :
    formulaLabel form (w :: f) =
      " " ++ f.foldl (appendEntry form) (w.sign ++ w.magnitudeLabel form) := by
  rw [← foldl_appendEntry_append, ← String.append_assoc, formulaLabel, List.map_cons, formulaForm,
    List.foldl_map]
  rfl

/-- The text of a formula is a blank and a text that denotes the weighted sum. -/
theorem exists_formulaLabel {f : Formula} (hne : f ≠ [])
    (hf : ∀ w ∈ f, SourceDenotes lookup form entry w) :
    ∃ s, formulaLabel form f = " " ++ s ∧ Denotes lookup .sum s.toList (f.value entry) := by
  cases f with
  | nil => exact absurd rfl hne
  | cons w f =>
    rw [List.forall_mem_cons] at hf
    refine ⟨_, formulaLabel_cons w f, ?_⟩
    rw [Formula.value_cons]
    exact denotes_foldl_appendEntry (denotes_firstEntry hf.1) hf.2

end Text

/-! ## The lines of a block -/

/-- The cells of a block in the order of their lines. -/
def blockOrder (rows cols : ℕ) : List (ℤ × ℤ) :=
  (sidePositions cols).flatMap fun col => (sidePositions rows).map fun row => (row, col)

theorem mem_blockOrder {rows cols : ℕ} {p : ℤ × ℤ} :
    p ∈ blockOrder rows cols ↔ p.1 ∈ sidePositions rows ∧ p.2 ∈ sidePositions cols := by
  obtain ⟨row, col⟩ := p
  simp [blockOrder, and_comm]

theorem nodup_blockOrder (rows cols : ℕ) : (blockOrder rows cols).Nodup := by
  refine nodup_flatMap_of_key Prod.snd Function.injective_id (nodup_sidePositions cols)
    (fun col _ => ?_) ?_
  · exact (nodup_sidePositions rows).map fun a b h => (Prod.mk.inj h).1
  · intro col _ p hp
    obtain ⟨row, -, rfl⟩ := List.mem_map.1 hp
    rfl

namespace RebasingTable

/-- The lines of a block with the given formulas. -/
def linesOf (form : CellForm) (f : ℤ → ℤ → Formula) (blockRows blockCols : ℕ) : List String :=
  (blockOrder blockRows blockCols).map fun p => rebasedLine form (f p.1 p.2) p.1 p.2

section Rendering

variable {t : RebasingTable} {form : CellForm} {blockRows blockCols : ℕ}

theorem render_eq_mapM (t : RebasingTable) (form : CellForm) :
    t.render form blockRows blockCols =
      (blockOrder blockRows blockCols).mapM fun p => t.renderCell form p.1 p.2 := rfl

variable (hrows : Text.Writable blockRows) (hcols : Text.Writable blockCols)

include hrows hcols

theorem writable_of_mem_blockOrder {p : ℤ × ℤ} (hp : p ∈ blockOrder blockRows blockCols) :
    Text.Writable p.1 ∧ Text.Writable p.2 := by
  obtain ⟨hr, hc⟩ := mem_blockOrder.1 hp
  exact ⟨writable_of_mem_sidePositions hr hrows, writable_of_mem_sidePositions hc hcols⟩

variable {f : ℤ → ℤ → Formula}
  (hf : ∀ row ∈ sidePositions blockRows, ∀ col ∈ sidePositions blockCols,
    t.formula row col = .ok (f row col))

include hf

theorem render_eq_ok (hw : ∀ row ∈ sidePositions blockRows, ∀ col ∈ sidePositions blockCols,
      (f row col).Writable) :
    t.render form blockRows blockCols = .ok (linesOf form f blockRows blockCols) := by
  refine mapM_eq_ok fun p hp => ?_
  obtain ⟨hr, hc⟩ := mem_blockOrder.1 hp
  exact renderCell_eq_ok (writable_of_mem_blockOrder hrows hcols hp) (hf _ hr _ hc) (hw _ hr _ hc)

/-- One number that is too long is enough for a block to have no lines. -/
theorem render_eq_error {row col : ℤ} (hr : row ∈ sidePositions blockRows)
    (hc : col ∈ sidePositions blockCols) (hlong : ¬ (f row col).Writable) :
    t.render form blockRows blockCols = .error (.integer .tooLongToWrite) := by
  rw [render_eq_mapM]
  cases hrender : (blockOrder blockRows blockCols).mapM fun p => t.renderCell form p.1 p.2 with
  | ok lines =>
    obtain ⟨line, -, hline⟩ :=
      exists_of_mapM_eq_ok hrender (a := (row, col)) (mem_blockOrder.2 ⟨hr, hc⟩)
    obtain ⟨-, g, hg, hw, -⟩ := renderCell_eq_ok_iff.1 hline
    obtain rfl : f row col = g := Except.ok.inj ((hf row hr col hc).symm.trans hg)
    exact absurd hw hlong
  | error e =>
    obtain ⟨p, hp, he⟩ := exists_of_mapM_eq_error hrender
    obtain ⟨hpr, hpc⟩ := mem_blockOrder.1 hp
    rcases of_renderCell_eq_error (writable_of_mem_blockOrder hrows hcols hp) he with
      hnone | ⟨-, -, -, rfl⟩
    · rw [hf _ hpr _ hpc] at hnone
      cases hnone
    · rfl

end Rendering

end RebasingTable

/-! ## The two tables -/

/-- The raw entry lies in the raw block of every pair of shells whose basis block has the
cell. -/
def WeightedEntry.Fits (cell : ℤ × ℤ) (w : WeightedEntry) : Prop :=
  1 ≤ w.row ∧ 1 ≤ w.col ∧ ∀ shell ∈ Shell.all,
    (cell.1 ≤ shell.basisSize → w.row ≤ shell.rawSize) ∧
      (cell.2 ≤ shell.basisSize → w.col ≤ shell.rawSize)

instance (cell : ℤ × ℤ) (w : WeightedEntry) : Decidable (w.Fits cell) :=
  inferInstanceAs (Decidable (_ ∧ _))

/-- The table has all cells up to the f shell, and their formulas stay in the raw blocks. -/
structure RebasingTable.Serves (t : RebasingTable) : Prop where
  cells_eq : t.cells.map (·.1) =
    (sidePositions 16).flatMap fun row => (sidePositions 16).map fun col => (row, col)
  fits : ∀ p ∈ t.cells, p.2 ≠ [] ∧ ∀ w ∈ p.2, w.Fits p.1
  weight_le : ∀ p ∈ t.cells, ∀ w ∈ p.2, w.weight.natAbs ≤ 16

theorem serves_nuclear : RebasingTable.nuclear.Serves where
  cells_eq := by decide +kernel
  fits := by decide +kernel
  weight_le := by decide +kernel

theorem serves_kineticMomentum : RebasingTable.kineticMomentum.Serves where
  cells_eq := by decide +kernel
  fits := by decide +kernel
  weight_le := by decide +kernel

theorem serves_family (n : FamilyName) : n.family.table.Serves := by
  cases n with
  | nuclear => exact serves_nuclear
  | kinetic => exact serves_kineticMomentum
  | momentum => exact serves_kineticMomentum

theorem Shell.mem_all (shell : Shell) : shell ∈ Shell.all := by cases shell <;> decide

theorem RebasingTable.Serves.exists_lookup {t : RebasingTable} (ht : t.Serves) {row col : ℤ}
    (hr : row ∈ sidePositions 16) (hc : col ∈ sidePositions 16) :
    ∃ f, t.cells.lookup (row, col) = some f := by
  have hmem : (row, col) ∈ t.cells.map (·.1) := by
    rw [ht.cells_eq, List.mem_flatMap]
    exact ⟨row, hr, List.mem_map.2 ⟨col, hc, rfl⟩⟩
  cases hf : t.cells.lookup (row, col) with
  | some f => exact ⟨f, rfl⟩
  | none =>
    obtain ⟨p, hp, heq⟩ := List.mem_map.1 hmem
    have hne := List.lookup_eq_none_iff.1 hf p hp
    rw [heq] at hne
    simp at hne

theorem writable_rawSize (shell : Shell) : Text.Writable (shell.rawSize : ℕ) := by
  have hle : shell.rawSize ≤ 20 := by cases shell <;> decide
  exact Text.writable_of_natAbs_le (by omega)

theorem basisSize_le (shell : Shell) : shell.basisSize ≤ 16 := by cases shell <;> decide

theorem writable_basisSize (shell : Shell) : Text.Writable (shell.basisSize : ℕ) := by
  have hle := basisSize_le shell
  exact Text.writable_of_natAbs_le (by omega)

/-- Every cell of a block has a formula with entries, all of them writable and in the raw block. -/
theorem RebasingTable.Serves.exists_formula {t : RebasingTable} (ht : t.Serves) (c : ShellPair)
    {row col : ℤ} (hr : row ∈ sidePositions c.basisSizes.1)
    (hc : col ∈ sidePositions c.basisSizes.2) :
    ∃ f, t.formula row col = .ok f ∧ f ≠ [] ∧ Formula.InRange c.rawSizes.1 c.rawSizes.2 f ∧
      f.Writable := by
  have hfirst := basisSize_le c.first
  have hsecond := basisSize_le c.second
  rw [mem_sidePositions] at hr hc
  simp only [ShellPair.basisSizes] at hr hc
  have hr16 : row ∈ sidePositions (16 : ℕ) := mem_sidePositions.2 ⟨hr.1, by omega⟩
  have hc16 : col ∈ sidePositions (16 : ℕ) := mem_sidePositions.2 ⟨hc.1, by omega⟩
  obtain ⟨f, hf⟩ := ht.exists_lookup hr16 hc16
  have hmem : ((row, col), f) ∈ t.cells := by
    obtain ⟨l₁, l₂, heq, -⟩ := List.lookup_eq_some_iff.1 hf
    rw [heq]
    exact List.mem_append_right _ List.mem_cons_self
  obtain ⟨hne, hfits⟩ := ht.fits _ hmem
  have hrange : Formula.InRange c.rawSizes.1 c.rawSizes.2 f := by
    intro w hw
    obtain ⟨h1, h2, hs⟩ := hfits w hw
    exact ⟨mem_sidePositions.2 ⟨h1, (hs c.first (Shell.mem_all _)).1 hr.2⟩,
      mem_sidePositions.2 ⟨h2, (hs c.second (Shell.mem_all _)).2 hc.2⟩⟩
  refine ⟨f, by rw [RebasingTable.formula, hf], hne, hrange, fun w hw => ?_⟩
  have hweight := ht.weight_le _ hmem w hw
  exact ⟨Text.writable_of_natAbs_le (by omega),
    writable_of_mem_sidePositions (hrange w hw).1 (writable_rawSize c.first),
    writable_of_mem_sidePositions (hrange w hw).2 (writable_rawSize c.second)⟩

end GaussianIntegrals
