/-
  Re-basing as a change of basis. A basis function is a combination of orbitals with integer
  coefficients; where each cell of a table is the product of the combinations of its row and
  its column, a basis block is `C * R * Cᵀ` for the raw matrix `R` and the matrix `C` of the
  coefficients (`Factors.applyExact_eq`), and so is each block of a batch
  (`Factors.applyBatch_eq`). The table of nuclear attraction integrals has such combinations,
  and they are linearly independent (`exists_changesBasis_nuclear`).

  The cells are compared with the products one by one, by evaluation; that products give
  `C * R * Cᵀ` holds of all tables of this kind. Independence is shown by combinations that
  are orthogonal to all basis functions but one.
-/
import GaussianIntegrals.Proofs.RebasedLines
import Mathlib.LinearAlgebra.Matrix.Symmetric
import Mathlib.LinearAlgebra.Matrix.ToLin

namespace GaussianIntegrals

/-! ## Combinations of orbitals -/

/-- A combination of orbitals: coefficients and orbitals, counted from 1. -/
abbrev Combination := List (ℤ × ℤ)

namespace Combination

/-- The coefficient of an orbital. -/
def coefficient (r : Combination) (orbital : ℤ) : ℤ :=
  ((r.filter fun p => p.2 = orbital).map Prod.fst).sum

/-- The combination of the values at the orbitals. -/
def value (y : ℤ → ℚ) (r : Combination) : ℚ := (r.map fun p => (p.1 : ℚ) * y p.2).sum

/-- The product of two combinations, as a formula in the pairs of orbitals. -/
def product (r s : Combination) : Formula :=
  r.flatMap fun p => s.map fun q => ⟨p.1 * q.1, p.2, q.2⟩

/-- The orbitals are among the first so many. -/
def InRange (n : ℕ) (r : Combination) : Prop := ∀ p ∈ r, p.2 ∈ sidePositions n

instance (n : ℕ) (r : Combination) : Decidable (r.InRange n) :=
  inferInstanceAs (Decidable (∀ p ∈ r, p.2 ∈ sidePositions n))

theorem value_cons (y : ℤ → ℚ) (p : ℤ × ℤ) (r : Combination) :
    value y (p :: r) = p.1 * y p.2 + value y r := by
  rw [value, List.map_cons, List.sum_cons, value]

theorem coefficient_cons (p : ℤ × ℤ) (r : Combination) (orbital : ℤ) :
    coefficient (p :: r) orbital =
      (if p.2 = orbital then p.1 else 0) + coefficient r orbital := by
  unfold coefficient
  by_cases h : p.2 = orbital <;> simp [h]

/-- A combination is the sum over all orbitals with their coefficients. -/
theorem value_eq_sum {n : ℕ} {r : Combination} (h : r.InRange n) (y : ℤ → ℚ) :
    r.value y = ∑ k : Fin n, (r.coefficient (k + 1) : ℚ) * y (k + 1) := by
  induction r with
  | nil => simp [value, coefficient]
  | cons p r ih =>
    unfold InRange at h
    rw [List.forall_mem_cons, mem_sidePositions] at h
    obtain ⟨⟨hlow, hhigh⟩, hr⟩ := h
    have hone : ∑ k : Fin n, ((if p.2 = (k : ℤ) + 1 then p.1 else 0 : ℤ) : ℚ) * y (k + 1) =
        p.1 * y p.2 := by
      have hk : p.2 = (((p.2 - 1).toNat : ℕ) : ℤ) + 1 := by omega
      rw [Finset.sum_eq_single (⟨(p.2 - 1).toNat, by omega⟩ : Fin n)]
      · rw [if_pos hk, ← hk]
      · intro k _ hne
        have hp : p.2 ≠ (k : ℤ) + 1 := fun heq => hne (Fin.ext (by simp [heq]))
        rw [if_neg hp, Int.cast_zero, zero_mul]
      · exact fun hmem => absurd (Finset.mem_univ _) hmem
    simp only [value_cons, coefficient_cons, Int.cast_add, add_mul, Finset.sum_add_distrib]
    rw [hone, ih hr]

theorem value_map_mul (x : ℤ → ℤ → ℚ) (p : ℤ × ℤ) (s : Combination) :
    Formula.value x (s.map fun q => ⟨p.1 * q.1, p.2, q.2⟩) = p.1 * s.value (x p.2) := by
  induction s with
  | nil => simp [Formula.value, value]
  | cons q s ih =>
    rw [List.map_cons, Formula.value_cons, ih, value_cons, mul_add, Int.cast_mul, mul_assoc]

/-- A product at a matrix of values. -/
theorem value_product (x : ℤ → ℤ → ℚ) (r s : Combination) :
    (product r s).value x = r.value fun i => s.value (x i) := by
  induction r with
  | nil => rfl
  | cons p r ih =>
    have hproduct : product (p :: r) s =
        (s.map fun q => ⟨p.1 * q.1, p.2, q.2⟩) ++ product r s := by
      rw [product, List.flatMap_cons, product]
    rw [hproduct, Formula.value_append, value_map_mul, ih, value_cons]

theorem InRange.product {m n : ℕ} {r s : Combination} (hr : r.InRange m) (hs : s.InRange n) :
    Formula.InRange m n (product r s) := by
  intro w hw
  obtain ⟨p, hp, hw⟩ := List.mem_flatMap.1 hw
  obtain ⟨q, hq, rfl⟩ := List.mem_map.1 hw
  exact ⟨hr p hp, hs q hq⟩

end Combination

open Combination

/-! ## Matrices as lists -/

section Lists

variable {m n : ℕ}

/-- The rows of a matrix. -/
def rowsOf (M : Matrix (Fin m) (Fin n) ℚ) : List (List ℚ) :=
  List.ofFn fun i => List.ofFn fun j => M i j

theorem rowsOf_injective : Function.Injective (rowsOf : Matrix (Fin m) (Fin n) ℚ → _) := by
  intro M N h
  refine Matrix.ext fun i j => ?_
  exact congrFun (List.ofFn_injective (congrFun (List.ofFn_injective h) i)) j

/-- The entry of a matrix by row and column counted from 1. -/
def entryAt (M : Matrix (Fin m) (Fin n) ℚ) (row col : ℤ) : ℚ :=
  if h : (row - 1).toNat < m ∧ (col - 1).toNat < n then M ⟨_, h.1⟩ ⟨_, h.2⟩ else 0

theorem entryAt_succ (M : Matrix (Fin m) (Fin n) ℚ) (i : Fin m) (j : Fin n) :
    entryAt M (i + 1) (j + 1) = M i j := by
  simp [entryAt]

theorem sidePositions_eq_ofFn (n : ℕ) :
    sidePositions n = List.ofFn fun k : Fin n => (k : ℤ) + 1 := by
  rw [sidePositions, Int.toNat_natCast, ← List.map_coe_finRange_eq_range, List.map_map,
    List.ofFn_eq_map]
  rfl

theorem matrixOf_eq_rowsOf (x : ℤ → ℤ → ℚ) :
    matrixOf m n x = rowsOf (Matrix.of fun (i : Fin m) (j : Fin n) => x (i + 1) (j + 1)) := by
  simp only [matrixOf, sidePositions_eq_ofFn, List.map_ofFn, Function.comp_def, rowsOf,
    Matrix.of_apply]

theorem matrixOf_entryAt (M : Matrix (Fin m) (Fin n) ℚ) : matrixOf m n (entryAt M) = rowsOf M := by
  rw [matrixOf_eq_rowsOf]
  simp only [entryAt_succ]
  rfl

end Lists

/-! ## Batches -/

/-- In parts of one length a position tells the part and the place in it. -/
theorem getElem?_flatMap {α β : Type} {as : List α} {f : α → List β} {n : ℕ}
    (h : ∀ a ∈ as, (f a).length = n) {i j : ℕ} (hj : j < n) :
    (as.flatMap f)[i * n + j]? = as[i]?.bind fun a => (f a)[j]? := by
  induction as generalizing i with
  | nil => simp
  | cons a as ih =>
    rw [List.forall_mem_cons] at h
    cases i with
    | zero => simp [List.flatMap_cons, List.getElem?_append_left, h.1, hj]
    | succ i =>
      have hpos : (i + 1) * n + j = (f a).length + (i * n + j) := by rw [h.1]; ring
      rw [List.flatMap_cons, hpos, List.getElem?_append_right (by omega), Nat.add_sub_cancel_left,
        ih h.2, List.getElem?_cons_succ]

theorem flatten_matrixOf {K : Type} (rows cols : ℕ) (x : ℤ → ℤ → K) :
    (matrixOf rows cols x).flatten =
      (sidePositions rows).flatMap fun row => (sidePositions cols).map (x row) := by
  rw [matrixOf, List.flatMap_def]

theorem length_sidePositions (n : ℕ) : (sidePositions n).length = n := by simp [sidePositions]

theorem length_flatten_matrixOf {K : Type} (rows cols : ℕ) (x : ℤ → ℤ → K) :
    (matrixOf rows cols x).flatten.length = rows * cols := by
  simp [flatten_matrixOf, length_sidePositions]

/-- The entries of a batch of matrices, one matrix after the other. -/
def batchOf {K : Type} (count rows cols : ℕ) (x : ℕ → ℤ → ℤ → K) : List K :=
  (List.range count).flatMap fun k => (matrixOf rows cols (x k)).flatten

theorem getElem?_batchOf {K : Type} {count rows cols : ℕ} (x : ℕ → ℤ → ℤ → K) {k : ℕ}
    (hk : k < count) {row col : ℤ} (hr : row ∈ sidePositions rows)
    (hc : col ∈ sidePositions cols) :
    (batchOf count rows cols x)[k * (rows * cols) + (row - 1).toNat * cols + (col - 1).toNat]? =
      some (x k row col) := by
  have hr' := mem_sidePositions.1 hr
  have hc' := mem_sidePositions.1 hc
  have hcol : (col - 1).toNat < cols := by omega
  have hplace : (row - 1).toNat * cols + (col - 1).toNat < rows * cols := by
    have hle : ((row - 1).toNat + 1) * cols ≤ rows * cols := Nat.mul_le_mul_right _ (by omega)
    rw [add_mul, one_mul] at hle
    omega
  rw [batchOf, Nat.add_assoc,
    getElem?_flatMap (fun _ _ => length_flatten_matrixOf rows cols _) hplace,
    List.getElem?_range hk, Option.bind_some, flatten_matrixOf,
    getElem?_flatMap (fun _ _ => by rw [List.length_map, length_sidePositions]) hcol,
    getElem?_sidePositions_of_mem hr, Option.bind_some, List.getElem?_map,
    getElem?_sidePositions_of_mem hc, Option.map_some]

/-- Re-basing a batch: once the entries of the block have places, nothing else can fail. -/
theorem RebasingTable.applyBatch_append {K : Type} (zero : K) (addScaled : K → ℤ → K → K)
    (t : RebasingTable) (batch : List ℕ) (rows cols : ℕ) (entries : Array K)
    (blockRows blockCols : ℕ) :
    t.applyBatch zero addScaled (batch ++ [rows, cols]) entries blockRows blockCols =
      (t.placed blockRows blockCols rows cols).map fun plan =>
        (batch ++ [blockRows, blockCols],
          ((List.range (Number.FloatGrid.sizeOf batch)).flatMap fun k =>
            plan.flatten.map (weightedSum zero addScaled fun r c =>
              entries.getD (k * (rows * cols) + r * cols + c) zero)).toArray) := by
  have hlength : (batch ++ [rows, cols]).length - 2 = batch.length := by simp
  rw [applyBatch, if_neg (by omega), hlength, List.take_left, List.drop_left]
  dsimp only
  cases t.placed blockRows blockCols rows cols <;> rfl

/-- The basis block of every matrix of a batch holds the weighted sums of its raw entries. -/
theorem applyBatch_eq_ok {t : RebasingTable} {rows cols blockRows blockCols : ℕ}
    {formula : ℤ → ℤ → Formula} (batch : List ℕ) (x : ℕ → ℤ → ℤ → ℚ)
    (h : ∀ row ∈ sidePositions blockRows, ∀ col ∈ sidePositions blockCols,
      t.formula row col = .ok (formula row col) ∧ (formula row col).InRange rows cols) :
    t.applyBatch (0 : ℚ) (fun acc w y => acc + w * y) (batch ++ [rows, cols])
        (batchOf (Number.FloatGrid.sizeOf batch) rows cols x).toArray blockRows blockCols =
      .ok (batch ++ [blockRows, blockCols],
        (batchOf (Number.FloatGrid.sizeOf batch) blockRows blockCols fun k row col =>
          (formula row col).value (x k)).toArray) := by
  rw [RebasingTable.applyBatch_append, placed_eq_ok h]
  refine congrArg Except.ok (Prod.ext rfl (congrArg List.toArray ?_))
  refine List.flatMap_congr fun k hk => ?_
  rw [List.map_flatten, map_matrixOf]
  refine congrArg List.flatten (matrixOf_congr fun row hrow col hcol => ?_)
  refine weightedSum_places (x k) _ fun w hw => ?_
  obtain ⟨hr, hc⟩ := (h row hrow col hcol).2 w hw
  rw [Array.getD_eq_getD_getElem?, List.getElem?_toArray,
    getElem?_batchOf x (List.mem_range.1 hk) hr hc, Option.getD_some]

/-! ## Tables by cells -/

/-- The formula of a cell, by row and column counted from 0. -/
def RebasingTable.cell (t : RebasingTable) (i j : Fin 16) : Formula :=
  (t.formula (i + 1) (j + 1)).toOption.getD []

/-- The cells of the table up to the f shell, by row and column counted from 0; their entries
lie in the raw matrix of two f shells. -/
structure RebasingTable.Holds (t : RebasingTable) (cell : Fin 16 → Fin 16 → Formula) : Prop where
  formula : ∀ i j : Fin 16, t.formula (i + 1) (j + 1) = .ok (cell i j)
  inRange : ∀ i j, (cell i j).InRange 20 20

namespace RebasingTable.Holds

variable {t : RebasingTable} {cell : Fin 16 → Fin 16 → Formula} (ht : t.Holds cell)

include ht

/-- The formulas of a block by row and column counted from 1. -/
theorem exists_formulas {d₁ d₂ : ℕ} (h₁ : d₁ ≤ 16) (h₂ : d₂ ≤ 16) :
    ∃ formula : ℤ → ℤ → Formula,
      (∀ row ∈ sidePositions d₁, ∀ col ∈ sidePositions d₂,
        t.formula row col = .ok (formula row col) ∧ (formula row col).InRange 20 20) ∧
      ∀ x : ℤ → ℤ → ℚ, matrixOf d₁ d₂ (fun row col => (formula row col).value x) =
        rowsOf (Matrix.of fun i j => (cell (i.castLE h₁) (j.castLE h₂)).value x) := by
  have hcell : ∀ row ∈ sidePositions d₁, ∀ col ∈ sidePositions d₂, ∃ f,
      (t.formula row col = .ok f ∧ f.InRange 20 20) ∧ ∀ (i : Fin d₁) (j : Fin d₂),
        row = i + 1 → col = j + 1 → f = cell (i.castLE h₁) (j.castLE h₂) := by
    intro row hr col hc
    rw [mem_sidePositions] at hr hc
    let i : Fin d₁ := ⟨(row - 1).toNat, by omega⟩
    let j : Fin d₂ := ⟨(col - 1).toNat, by omega⟩
    have hi : row = (i : ℤ) + 1 := by simp only [i]; omega
    have hj : col = (j : ℤ) + 1 := by simp only [j]; omega
    refine ⟨cell (i.castLE h₁) (j.castLE h₂), ⟨?_, ht.inRange _ _⟩, ?_⟩
    · rw [hi, hj]
      exact ht.formula (i.castLE h₁) (j.castLE h₂)
    · intro i' j' hi' hj'
      obtain rfl : i' = i := Fin.ext (by omega)
      obtain rfl : j' = j := Fin.ext (by omega)
      rfl
  choose! formula hformula hvalue using hcell
  have hmem : ∀ {d : ℕ} (i : Fin d), (i : ℤ) + 1 ∈ sidePositions d := fun i =>
    mem_sidePositions.2 ⟨by omega, by omega⟩
  refine ⟨formula, hformula, fun x => ?_⟩
  rw [matrixOf_eq_rowsOf]
  refine congrArg rowsOf (Matrix.ext fun i j => ?_)
  rw [Matrix.of_apply, Matrix.of_apply, hvalue _ (hmem i) _ (hmem j) i j rfl rfl]

/-- The basis matrix holds the values of the cells. -/
theorem applyExact_eq (R : Matrix (Fin 20) (Fin 20) ℚ) :
    t.applyExact (rowsOf R) 20 20 16 16 =
      .ok (rowsOf (Matrix.of fun i j => (cell i j).value (entryAt R))) := by
  obtain ⟨formula, hformula, hmatrix⟩ := ht.exists_formulas (le_refl 16) (le_refl 16)
  rw [← matrixOf_entryAt]
  exact (applyExact_eq_ok (entryAt R) hformula).trans (congrArg Except.ok (hmatrix _))

end RebasingTable.Holds

theorem RebasingTable.Serves.holds {t : RebasingTable} (ht : t.Serves) : t.Holds t.cell := by
  have hcell : ∀ i j : Fin 16, t.formula (i + 1) (j + 1) = .ok (t.cell i j) ∧
      (t.cell i j).InRange 20 20 := by
    intro i j
    have hmem : ∀ k : Fin 16, (k : ℤ) + 1 ∈ sidePositions (16 : ℕ) := fun k =>
      mem_sidePositions.2 ⟨by omega, by omega⟩
    obtain ⟨f, hf, -, hrange, -⟩ := ht.exists_formula ⟨.f, .f⟩ (hmem i) (hmem j)
    have hfcell : t.cell i j = f := by rw [RebasingTable.cell, hf]; rfl
    rw [hfcell]
    exact ⟨hf, hrange⟩
  exact ⟨fun i j => (hcell i j).1, fun i j => (hcell i j).2⟩

/-- The basis matrix of two f shells. -/
def RebasingTable.basisMatrix (t : RebasingTable) (R : Matrix (Fin 20) (Fin 20) ℚ) :
    Matrix (Fin 16) (Fin 16) ℚ :=
  Matrix.of fun i j => (t.cell i j).value (entryAt R)

theorem RebasingTable.Serves.applyExact_eq {t : RebasingTable} (ht : t.Serves)
    (R : Matrix (Fin 20) (Fin 20) ℚ) :
    t.applyExact (rowsOf R) 20 20 16 16 = .ok (rowsOf (t.basisMatrix R)) :=
  ht.holds.applyExact_eq R

/-! ## Tables of products -/

/-- Every cell is the product of the combinations of its row and of its column. -/
structure RebasingTable.Factors (t : RebasingTable) (basis : Fin 16 → Combination) : Prop where
  formula : ∀ i j : Fin 16, t.formula (i + 1) (j + 1) = .ok (product (basis i) (basis j))
  inRange : ∀ i, (basis i).InRange 20

/-- The coefficients of the basis functions, a row for each. -/
def coefficientsOf (basis : Fin 16 → Combination) : Matrix (Fin 16) (Fin 20) ℤ :=
  Matrix.of fun i k => (basis i).coefficient (k + 1)

/-- The rows of the first so many basis functions. -/
def firstRows (C : Matrix (Fin 16) (Fin 20) ℤ) {d : ℕ} (h : d ≤ 16) : Matrix (Fin d) (Fin 20) ℚ :=
  Matrix.of fun i k => (C (Fin.castLE h i) k : ℚ)

/-- A product of combinations is the entry of the matrix product. -/
theorem value_product_eq_mul {basis : Fin 16 → Combination} (hb : ∀ i, (basis i).InRange 20)
    {d₁ d₂ : ℕ} (h₁ : d₁ ≤ 16) (h₂ : d₂ ≤ 16) (R : Matrix (Fin 20) (Fin 20) ℚ) (i : Fin d₁)
    (j : Fin d₂) :
    (product (basis (i.castLE h₁)) (basis (j.castLE h₂))).value (entryAt R) =
      (firstRows (coefficientsOf basis) h₁ * R *
        (firstRows (coefficientsOf basis) h₂).transpose) i j := by
  rw [value_product, value_eq_sum (hb _), Matrix.mul_assoc, Matrix.mul_apply]
  refine Finset.sum_congr rfl fun k _ => ?_
  rw [value_eq_sum (hb _), Matrix.mul_apply]
  refine congrArg₂ _ rfl (Finset.sum_congr rfl fun l _ => ?_)
  rw [entryAt_succ, mul_comm]
  rfl

/-- The entries of a batch of matrices, one matrix after the other. -/
def entriesOf {m n : ℕ} (count : ℕ) (R : ℕ → Matrix (Fin m) (Fin n) ℚ) : Array ℚ :=
  ((List.range count).flatMap fun k => (rowsOf (R k)).flatten).toArray

theorem mul_transpose_mul_transpose {m n k : ℕ} (A : Matrix (Fin m) (Fin n) ℚ)
    (B : Matrix (Fin k) (Fin n) ℚ) (R : Matrix (Fin n) (Fin n) ℚ) :
    B * R.transpose * A.transpose = (A * R * B.transpose).transpose := by
  rw [Matrix.transpose_mul, Matrix.transpose_mul, Matrix.transpose_transpose, Matrix.mul_assoc]

theorem isSymm_mul_mul_transpose {m n : ℕ} (C : Matrix (Fin m) (Fin n) ℚ)
    {R : Matrix (Fin n) (Fin n) ℚ} (hR : R.IsSymm) : (C * R * C.transpose).IsSymm := by
  rw [Matrix.IsSymm, ← mul_transpose_mul_transpose, hR.eq]

/-- Re-basing with the table is multiplication by the matrix from the left and by its
transpose from the right, on a raw matrix and on all those of a batch. So it commutes with
transposition and keeps symmetry. -/
structure RebasingTable.ChangesBasis (t : RebasingTable) (C : Matrix (Fin 16) (Fin 20) ℤ) :
    Prop where
  block : ∀ (R : Matrix (Fin 20) (Fin 20) ℚ) {d₁ d₂ : ℕ} (h₁ : d₁ ≤ 16) (h₂ : d₂ ≤ 16),
    t.applyExact (rowsOf R) 20 20 d₁ d₂ =
      .ok (rowsOf (firstRows C h₁ * R * (firstRows C h₂).transpose))
  batch : ∀ (lengths : List ℕ) (R : ℕ → Matrix (Fin 20) (Fin 20) ℚ) {d₁ d₂ : ℕ} (h₁ : d₁ ≤ 16)
    (h₂ : d₂ ≤ 16),
    t.applyBatch (0 : ℚ) (fun acc w x => acc + w * x) (lengths ++ [20, 20])
        (entriesOf (Number.FloatGrid.sizeOf lengths) R) d₁ d₂ =
      .ok (lengths ++ [d₁, d₂], entriesOf (Number.FloatGrid.sizeOf lengths) fun k =>
        firstRows C h₁ * R k * (firstRows C h₂).transpose)
  transpose : ∀ (R : Matrix (Fin 20) (Fin 20) ℚ) {d₁ d₂ : ℕ}, d₁ ≤ 16 → d₂ ≤ 16 →
    ∃ B : Matrix (Fin d₁) (Fin d₂) ℚ, t.applyExact (rowsOf R) 20 20 d₁ d₂ = .ok (rowsOf B) ∧
      t.applyExact (rowsOf R.transpose) 20 20 d₂ d₁ = .ok (rowsOf B.transpose)
  symmetric : ∀ R : Matrix (Fin 20) (Fin 20) ℚ, R.IsSymm → ∀ {d : ℕ}, d ≤ 16 →
    ∃ B : Matrix (Fin d) (Fin d) ℚ, B.IsSymm ∧ t.applyExact (rowsOf R) 20 20 d d = .ok (rowsOf B)

namespace RebasingTable.Factors

variable {t : RebasingTable} {basis : Fin 16 → Combination} (ht : t.Factors basis)

include ht

theorem holds : t.Holds fun i j => product (basis i) (basis j) :=
  ⟨ht.formula, fun i j => (ht.inRange i).product (ht.inRange j)⟩

/-- The formulas of a block, whose values are the entries of the matrix product. -/
theorem exists_formulas {d₁ d₂ : ℕ} (h₁ : d₁ ≤ 16) (h₂ : d₂ ≤ 16) :
    ∃ formula : ℤ → ℤ → Formula,
      (∀ row ∈ sidePositions d₁, ∀ col ∈ sidePositions d₂,
        t.formula row col = .ok (formula row col) ∧ (formula row col).InRange 20 20) ∧
      ∀ R : Matrix (Fin 20) (Fin 20) ℚ,
        matrixOf d₁ d₂ (fun row col => (formula row col).value (entryAt R)) =
          rowsOf (firstRows (coefficientsOf basis) h₁ * R *
            (firstRows (coefficientsOf basis) h₂).transpose) := by
  obtain ⟨formula, hformula, hmatrix⟩ := ht.holds.exists_formulas h₁ h₂
  refine ⟨formula, hformula, fun R => (hmatrix _).trans (congrArg rowsOf ?_)⟩
  exact Matrix.ext fun i j => value_product_eq_mul ht.inRange h₁ h₂ R i j

theorem applyExact_eq (R : Matrix (Fin 20) (Fin 20) ℚ) {d₁ d₂ : ℕ} (h₁ : d₁ ≤ 16)
    (h₂ : d₂ ≤ 16) :
    t.applyExact (rowsOf R) 20 20 d₁ d₂ = .ok (rowsOf (firstRows (coefficientsOf basis) h₁ * R *
      (firstRows (coefficientsOf basis) h₂).transpose)) := by
  obtain ⟨formula, hformula, hmatrix⟩ := ht.exists_formulas h₁ h₂
  rw [← matrixOf_entryAt, applyExact_eq_ok (entryAt R) hformula, hmatrix]

theorem basisMatrix_eq (R : Matrix (Fin 20) (Fin 20) ℚ) :
    t.basisMatrix R = firstRows (coefficientsOf basis) (le_refl 16) * R *
      (firstRows (coefficientsOf basis) (le_refl 16)).transpose := by
  refine Matrix.ext fun i j => ?_
  have hcell : t.cell i j = product (basis i) (basis j) := by
    rw [RebasingTable.cell, ht.formula]
    rfl
  rw [RebasingTable.basisMatrix, Matrix.of_apply, hcell]
  exact value_product_eq_mul ht.inRange (le_refl 16) (le_refl 16) R i j

theorem applyBatch_eq (lengths : List ℕ) (R : ℕ → Matrix (Fin 20) (Fin 20) ℚ) {d₁ d₂ : ℕ}
    (h₁ : d₁ ≤ 16) (h₂ : d₂ ≤ 16) :
    t.applyBatch (0 : ℚ) (fun acc w x => acc + w * x) (lengths ++ [20, 20])
        (entriesOf (Number.FloatGrid.sizeOf lengths) R) d₁ d₂ =
      .ok (lengths ++ [d₁, d₂], entriesOf (Number.FloatGrid.sizeOf lengths) fun k =>
        firstRows (coefficientsOf basis) h₁ * R k *
          (firstRows (coefficientsOf basis) h₂).transpose) := by
  obtain ⟨formula, hformula, hmatrix⟩ := ht.exists_formulas h₁ h₂
  have happly := applyBatch_eq_ok lengths (fun k => entryAt (R k)) hformula
  simpa only [batchOf, matrixOf_entryAt, hmatrix, entriesOf] using happly

theorem changesBasis : t.ChangesBasis (coefficientsOf basis) where
  block R _ _ h₁ h₂ := ht.applyExact_eq R h₁ h₂
  batch lengths R _ _ h₁ h₂ := ht.applyBatch_eq lengths R h₁ h₂
  transpose R _ _ h₁ h₂ := by
    refine ⟨_, ht.applyExact_eq R h₁ h₂, ?_⟩
    rw [ht.applyExact_eq R.transpose h₂ h₁, mul_transpose_mul_transpose]
  symmetric R hR _ h := ⟨_, isSymm_mul_mul_transpose _ hR, ht.applyExact_eq R h h⟩

end RebasingTable.Factors

/-! ## Independence -/

/-- Rows are independent where other vectors tell them apart: each vector is orthogonal to all
rows but its own. -/
theorem linearIndependent_of_mul_eq_diagonal {C : Matrix (Fin 16) (Fin 20) ℤ}
    {D : Matrix (Fin 20) (Fin 16) ℤ} {e : Fin 16 → ℤ} (h : C * D = Matrix.diagonal e)
    (he : ∀ i, e i ≠ 0) : LinearIndependent ℚ (C.map (Int.cast : ℤ → ℚ)).row := by
  have hcast : C.map (Int.castRingHom ℚ) * D.map (Int.castRingHom ℚ) =
      Matrix.diagonal fun i => (e i : ℚ) := by
    rw [← Matrix.map_mul, h, Matrix.diagonal_map (map_zero _)]
    rfl
  refine Matrix.vecMul_injective_iff.1 fun v w hvw => funext fun i => ?_
  have hmul : Matrix.vecMul v (Matrix.diagonal fun i => (e i : ℚ)) i =
      Matrix.vecMul w (Matrix.diagonal fun i => (e i : ℚ)) i := by
    rw [← hcast, ← Matrix.vecMul_vecMul, ← Matrix.vecMul_vecMul]
    exact congrFun (congrArg (fun u => Matrix.vecMul u _) hvw) i
  rw [Matrix.vecMul_diagonal, Matrix.vecMul_diagonal] at hmul
  exact mul_right_cancel₀ (Int.cast_ne_zero.2 (he i)) hmul

/-! ## Nuclear attraction -/

/-- The basis functions of the nuclear attraction integrals. -/
def nuclearBasis : Fin 16 → Combination := ![
  [(1, 1)], [(1, 2)], [(1, 3)], [(1, 4)], [(1, 8)], [(1, 9)], [(1, 10)], [(1, 5), (-1, 6)],
  [(2, 7), (-1, 5), (-1, 6)], [(1, 11)], [(1, 13), (-1, 15)], [(1, 18), (-3, 14)],
  [(3, 12), (-1, 19)], [(2, 20), (-3, 13), (-3, 15)], [(4, 16), (-1, 18), (-1, 14)],
  [(4, 17), (-1, 12), (-1, 19)]]

/-- Combinations each of which is orthogonal to all basis functions but its own. -/
def nuclearDual : Fin 16 → Combination := ![
  [(1, 1)], [(1, 2)], [(1, 3)], [(1, 4)], [(1, 8)], [(1, 9)], [(1, 10)], [(1, 5), (-1, 6)],
  [(1, 7)], [(1, 11)], [(1, 13), (-1, 15)], [(1, 18), (-1, 14)], [(1, 12), (-1, 19)], [(1, 20)],
  [(1, 16)], [(1, 17)]]

theorem factors_nuclear : RebasingTable.nuclear.Factors nuclearBasis where
  formula := by decide +kernel
  inRange := by decide +kernel

theorem coefficientsOf_nuclear_mul :
    coefficientsOf nuclearBasis * (coefficientsOf nuclearDual).transpose =
      Matrix.diagonal ![1, 1, 1, 1, 1, 1, 1, 2, 2, 1, 2, 4, 4, 2, 4, 4] := by
  decide +kernel

/-- **The nuclear table is a change of basis**, with linearly independent basis functions. -/
theorem exists_changesBasis_nuclear :
    ∃ C : Matrix (Fin 16) (Fin 20) ℤ,
      LinearIndependent ℚ (C.map (Int.cast : ℤ → ℚ)).row ∧ RebasingTable.nuclear.ChangesBasis C :=
  ⟨coefficientsOf nuclearBasis,
    linearIndependent_of_mul_eq_diagonal coefficientsOf_nuclear_mul (by decide),
    factors_nuclear.changesBasis⟩

end GaussianIntegrals
