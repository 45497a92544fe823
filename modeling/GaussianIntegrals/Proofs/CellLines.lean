/-
  The lines of a re-basing table read back. A line is taken apart at its first closing parenthesis:
  in front stands the entry that it assigns to, then the assignment operator, then the signed
  multiples of entries of the raw matrix. Read this way it gives its cell and the formula of the
  cell, entry by entry (`readLine_rebasedLine`), and its value as arithmetic is the weighted sum
  (`lineValue_rebasedLine`).
-/
import GaussianIntegrals.Proofs.Code.Multiples
import GaussianIntegrals.Proofs.EmittedProgram

namespace GaussianIntegrals

open Code

/-! ## Reading a line -/

/-- The integer that an index spells. -/
def Code.Index.integer? (i : Index) : Option ℤ :=
  (natural? i.word).map fun n : ℕ => if i.negative then -(n : ℤ) else n

theorem Code.Index.integer?_ofInt (k : ℤ) : (Index.ofInt k).integer? = some k := by
  have hk : (if k < 0 then -(k.natAbs : ℤ) else k.natAbs) = k := by omega
  rw [Index.integer?, Index.ofInt, natural?_toDigits, Option.map_some]
  simpa using hk

/-- The text is a name that consists of characters of words. -/
def IsIdentifier (s : String) : Prop := isName s.toList = true ∧ IsWord s.toList

namespace CellForm

/-- Both matrices have identifiers as names, and so has the leading index, if there is one. -/
structure HasNames (form : CellForm) : Prop where
  target : IsIdentifier form.target
  source : IsIdentifier form.source
  index : form.index = "" ∨ IsIdentifier form.index

/-- The indices in front of row and column. -/
def lead (form : CellForm) : List Index :=
  if form.index.isEmpty then [] else [⟨false, form.index.toList⟩]

/-- The row and the column of an entry of a matrix. -/
def rowCol? (form : CellForm) (matrix : String) (r : Reference) : Option (ℤ × ℤ) :=
  if r.name = matrix.toList ∧ r.indices.take form.lead.length = form.lead then
    match r.indices.drop form.lead.length with
    | [i, j] => do some (← i.integer?, ← j.integer?)
    | _ => none
  else none

/-- The cell that a line assigns to, and what stands behind the assignment operator. -/
def splitLine (form : CellForm) (line : String) : Option ((ℤ × ℤ) × String) := do
  let head := line.toList.takeWhile (· != ')') ++ [')']
  let rest := (line.toList.dropWhile (· != ')')).drop 1
  match ← read (tokens (String.ofList head)) with
  | .reference r =>
    let cell ← form.rowCol? form.target r
    let body ← rest.dropPrefix? (Text.strippedEnd form.assignment).toList
    some (cell, String.ofList body)
  | _ => none

/-- The weighted entry that a multiple of an entry of the raw matrix stands for. -/
def summand? (form : CellForm) (m : Multiple) : Option WeightedEntry :=
  (form.rowCol? form.source m.2).map fun p => ⟨m.1, p.1, p.2⟩

/-- The formula that signed multiples spell; nothing spells the empty one. -/
def formula? (form : CellForm) (body : String) : Option Formula :=
  if tokens body = [] then some []
  else do (← (← read (tokens body)).multiples?).mapM form.summand?

/-- The cell and the formula of a line. -/
def readLine (form : CellForm) (line : String) : Option ((ℤ × ℤ) × Formula) := do
  let (cell, body) ← form.splitLine line
  some (cell, ← form.formula? body)

/-- The value of what a line assigns, as arithmetic on the entries of the raw matrix. -/
def lineValue (form : CellForm) (entry : ℤ → ℤ → Option ℚ) (line : String) : Option ℚ := do
  let (_, body) ← form.splitLine line
  if tokens body = [] then some 0
  else (← read (tokens body)).value fun r => do
    let (row, col) ← form.rowCol? form.source r
    entry row col

end CellForm

/-! ## Entries -/

namespace CellForm

variable {form : CellForm}

theorem rowCol?_matrixReference (form : CellForm) (matrix : String) (row col : ℤ) :
    form.rowCol? matrix (matrixReference matrix.toList form.lead row col) = some (row, col) := by
  have htake : (form.lead ++ [Index.ofInt row, .ofInt col]).take form.lead.length = form.lead :=
    List.take_left
  have hdrop : (form.lead ++ [Index.ofInt row, .ofInt col]).drop form.lead.length =
      [.ofInt row, .ofInt col] := List.drop_left
  rw [rowCol?, matrixReference, if_pos ⟨rfl, htake⟩]
  dsimp only
  rw [hdrop]
  simp [Index.integer?_ofInt]

theorem isWord_lead (hindex : form.index = "" ∨ IsIdentifier form.index) :
    ∀ i ∈ form.lead, IsWord i.word := by
  unfold lead
  split
  · simp
  · next hne =>
    rcases hindex with h | h
    · rw [h] at hne
      exact absurd rfl hne
    · simpa using h.2

theorem wellFormed_entry {matrix : String} (hmatrix : IsIdentifier matrix)
    (hindex : form.index = "" ∨ IsIdentifier form.index) (row col : ℤ) :
    (matrixReference matrix.toList form.lead row col).WellFormed :=
  wellFormed_matrixReference hmatrix.1 hmatrix.2 (isWord_lead hindex) row col

/-- The text of an entry is that of the reference. -/
theorem toList_entryLabel (hindex : form.index = "" ∨ IsIdentifier form.index) (matrix : String)
    (row col : ℤ) : (entryLabel matrix form.index row col).toList =
      (matrixReference matrix.toList form.lead row col).chars := by
  have htext : entryLabel matrix form.index row col =
      (matrixReference matrix.toList form.lead row col).text := by
    rw [← String.ofList_toList (s := matrix), String.toList_ofList]
    rcases hindex with h | h
    · rw [lead, h]
      exact entryLabel_plain matrix.toList row col
    · have hne : form.index.isEmpty = false := by
        rw [Bool.eq_false_iff, Ne, String.isEmpty_iff]
        exact fun hempty => h.2.1 (by rw [hempty]; rfl)
      have hchars : String.ofList (Index.chars ⟨false, form.index.toList⟩) = form.index :=
        String.ofList_toList
      rw [lead, hne, if_neg Bool.false_ne_true]
      conv_lhs => rw [← hchars]
      exact entryLabel_indexed matrix.toList (i := ⟨false, form.index.toList⟩) h.2 row col
  rw [htext, Reference.text, String.toList_ofList]

/-! ## Formulas -/

/-- The multiple of an entry of the raw matrix that a weighted entry is. -/
def multiple (form : CellForm) (w : WeightedEntry) : Multiple :=
  (w.weight, matrixReference form.source.toList form.lead w.row w.col)

theorem summand?_multiple (form : CellForm) (w : WeightedEntry) :
    form.summand? (form.multiple w) = some w := by
  rw [summand?, multiple, rowCol?_matrixReference]
  rfl

theorem mapM_summand? (form : CellForm) (f : Formula) :
    (f.map form.multiple).mapM form.summand? = some f := by
  induction f with
  | nil => rfl
  | cons w f ih => simp [List.mapM_cons, summand?_multiple, ih]

theorem toList_sign (form : CellForm) (w : WeightedEntry) :
    w.sign.toList = [signChar (form.multiple w).1] := by
  unfold WeightedEntry.sign signChar multiple
  split <;> rfl

section Texts

variable (h : form.HasNames)

include h

theorem toList_magnitudeLabel (w : WeightedEntry) :
    (w.magnitudeLabel form).toList = magnitudeChars (form.multiple w) := by
  unfold WeightedEntry.magnitudeLabel WeightedEntry.factorLabel magnitudeChars
  rw [String.toList_append, toList_entryLabel h.index, multiple]
  split
  · rfl
  · simp [Nat.toString_eq_repr, Nat.toList_repr]

theorem spells_firstEntry (w : WeightedEntry) :
    Spells (w.sign ++ w.magnitudeLabel form).toList [form.multiple w] := by
  rw [String.toList_append, toList_sign form, toList_magnitudeLabel h]
  exact Spells.first (wellFormed_entry h.source h.index w.row w.col)

theorem spells_foldl_appendEntry {f : Formula} {s : String} {ms : List Multiple}
    (hs : Spells s.toList ms) :
    Spells (f.foldl (appendEntry form) s).toList (ms ++ f.map form.multiple) := by
  induction f generalizing s ms with
  | nil => simpa using hs
  | cons w f ih =>
    have hnext := hs.next (m := form.multiple w) (wellFormed_entry h.source h.index w.row w.col)
    have hw : (appendEntry form s w).toList =
        s.toList ++ [' ', signChar (form.multiple w).1, ' '] ++
          magnitudeChars (form.multiple w) := by
      simp [appendEntry, toList_sign form, toList_magnitudeLabel h]
    rw [← hw] at hnext
    simpa using ih hnext

/-- The text of a formula is read as its multiples, if there are any. -/
theorem exists_read_formulaLabel {f : Formula} (hne : f ≠ []) :
    tokens (formulaLabel form f) ≠ [] ∧ ∃ a, read (tokens (formulaLabel form f)) = some a ∧
      a.multiples? = some (f.map form.multiple) := by
  have hread : (read (tokens (formulaLabel form f))).bind Arith.multiples? =
      some (f.map form.multiple) := by
    cases f with
    | nil => exact absurd rfl hne
    | cons w f =>
      rw [formulaLabel_cons, tokens_blank_append]
      exact (spells_foldl_appendEntry h (spells_firstEntry h w)).read_eq
  refine ⟨fun hnil => ?_, Option.bind_eq_some_iff.1 hread⟩
  rw [hnil] at hread
  cases hread

theorem formula?_formulaLabel (f : Formula) : form.formula? (formulaLabel form f) = some f := by
  by_cases hne : f = []
  · rw [hne]
    exact if_pos rfl
  · obtain ⟨htokens, a, ha, hms⟩ := exists_read_formulaLabel h hne
    rw [formula?, if_neg htokens, ha]
    simp only [Option.bind_eq_bind, Option.bind_some, hms]
    exact mapM_summand? form f

end Texts

end CellForm

/-! ## Lines -/

theorem Code.closing_notMem_of_isWord {w : List Char} (h : IsWord w) : ')' ∉ w := by
  intro hmem
  have hword := h.2 _ hmem
  revert hword
  decide

theorem Code.closing_notMem_indexChars {is : List Index} (h : ∀ i ∈ is, IsWord i.word) :
    ')' ∉ indexChars is := by
  have hindex : ∀ i ∈ is, ')' ∉ i.chars := by
    intro i hi
    have hword := closing_notMem_of_isWord (h i hi)
    unfold Index.chars
    split
    · simpa using hword
    · exact hword
  clear h
  induction is with
  | nil => simp [indexChars]
  | cons i is ih =>
    rw [List.forall_mem_cons] at hindex
    cases is with
    | nil => exact hindex.1
    | cons j js =>
      rw [indexChars, List.mem_append, List.mem_cons]
      rintro (hi | hcomma | his)
      · exact hindex.1 hi
      · cases hcomma
      · exact ih hindex.2 his
      · simp

/-- A reference with indices ends at its first closing parenthesis. -/
theorem Code.Reference.WellFormed.exists_chars {r : Reference} (h : r.WellFormed)
    (hne : r.indices ≠ []) : ∃ s, r.chars = s ++ [')'] ∧ ')' ∉ s := by
  refine ⟨r.name ++ '(' :: indexChars r.indices, ?_, ?_⟩
  · rw [Reference.chars, if_neg (by simpa using hne)]
    simp
  · rw [List.mem_append, List.mem_cons]
    rintro (hname | hopening | hindices)
    · exact closing_notMem_of_isWord h.name_isWord hname
    · cases hopening
    · exact closing_notMem_indexChars h.indices_isWord hindices

theorem Code.Reference.WellFormed.read_text {r : Reference} (h : r.WellFormed) :
    read (Code.tokens r.text) = some (.reference r) := by
  have hscans : Scans r.text.toList r.tokens := by
    rw [Reference.text, String.toList_ofList]
    exact h.scans
  rw [hscans.tokens_eq]
  exact (reads_reference h.name_isName).read_eq

namespace CellForm

section Lines

variable {form : CellForm} (h : form.HasNames) (f : Formula) (row col : ℤ)

include h

theorem splitLine_rebasedLine :
    form.splitLine (rebasedLine form f row col) = some ((row, col), formulaLabel form f) := by
  have hwf := wellFormed_entry h.target h.index row col
  obtain ⟨s, hs, hclosing⟩ := hwf.exists_chars (by simp [matrixReference])
  have hline : (rebasedLine form f row col).toList =
      s ++ ')' :: ((Text.strippedEnd form.assignment).toList ++ (formulaLabel form f).toList) := by
    rw [rebasedLine, String.toList_append, String.toList_append, toList_entryLabel h.index, hs]
    simp
  have hall : ∀ c ∈ s, (c != ')') = true := by
    intro c hc
    rw [bne_iff_ne]
    rintro rfl
    exact hclosing hc
  have hread : read (tokens (String.ofList (s ++ [')']))) =
      some (.reference (matrixReference form.target.toList form.lead row col)) := by
    rw [← hs]
    exact hwf.read_text
  have htake : (rebasedLine form f row col).toList.takeWhile (· != ')') = s := by
    rw [hline, List.takeWhile_append_of_pos hall]
    simp
  have hdrop : (rebasedLine form f row col).toList.dropWhile (· != ')') =
      ')' :: ((Text.strippedEnd form.assignment).toList ++ (formulaLabel form f).toList) := by
    rw [hline, List.dropWhile_append_of_pos hall]
    simp
  rw [splitLine, htake, hdrop, hread]
  simp [rowCol?_matrixReference, List.dropPrefix?_append_of_beq]

/-- A line gives its cell and the formula of the cell. -/
theorem readLine_rebasedLine :
    form.readLine (rebasedLine form f row col) = some ((row, col), f) := by
  rw [readLine, splitLine_rebasedLine h]
  simp [formula?_formulaLabel h]

/-- A line has the value of its formula. -/
theorem lineValue_rebasedLine {entry : ℤ → ℤ → Option ℚ} {x : ℤ → ℤ → ℚ}
    (hx : ∀ w ∈ f, entry w.row w.col = some (x w.row w.col)) :
    form.lineValue entry (rebasedLine form f row col) = some (f.value x) := by
  rw [lineValue, splitLine_rebasedLine h]
  simp only [Option.bind_eq_bind, Option.bind_some]
  by_cases hne : f = []
  · subst hne
    exact if_pos rfl
  · obtain ⟨htokens, a, ha, hms⟩ := exists_read_formulaLabel h hne
    let y : Reference → ℚ := fun r => ((form.rowCol? form.source r).map fun p => x p.1 p.2).getD 0
    have hlookup : ∀ m ∈ f.map form.multiple,
        ((form.rowCol? form.source m.2).bind fun p => entry p.1 p.2) = some (y m.2) := by
      rw [List.forall_mem_map]
      intro w hw
      simp only [y]
      rw [multiple, rowCol?_matrixReference]
      exact hx w hw
    rw [if_neg htokens, ha, Option.bind_some, Arith.value_of_multiples? hms hlookup]
    refine congrArg (fun ys => some (List.sum ys)) ?_
    rw [List.map_map]
    refine List.map_congr_left fun w _ => ?_
    simp [y, multiple, rowCol?_matrixReference]

end Lines

end CellForm

end GaussianIntegrals
