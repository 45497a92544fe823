/-
  The emitted program computes the exact matrices: the raw lines of a pair of shells, and after
  them the re-based lines at any axis of the family, run in exact arithmetic on the values of
  the symbols, leave the exact raw matrix in the cells of `wo` and the exact basis matrix in
  those of `g`.

  A raw line stores the value of its expression in any memory that has the values of the
  symbols (`exists_rawLine`), because no symbol is an entry of either matrix; a re-based line
  stores the weighted sum of its formula in any memory that has the raw entries of the axis
  (`stores_rebasedLine`). All cells differ, so the runs store all values.
-/
import GaussianIntegrals.Generation.Case
import GaussianIntegrals.Proofs.RebasedLines
import GaussianIntegrals.Proofs.RenderedValue
import Mathlib.Tactic.Choose

namespace GaussianIntegrals

open Expr Code

/-! ## Values of emittable expressions -/

section Values

variable {values : String → Option ℚ}

mutual
/-- Where all names have values and `Y` is not zero, an emittable expression has a value. -/
theorem exists_hasValue (hY : values "Y" ≠ some 0) {e : Expr} (he : EveryPart Emittable e)
    (hb : EveryPart (Bound values) e) : ∃ x, HasValue values e x := by
  cases e with
  | const v => exact ⟨v, hasValue_const.2 rfl⟩
  | symbol n =>
    obtain ⟨x, hx⟩ := Option.isSome_iff_exists.1 (everyPart_symbol.1 hb n rfl)
    exact ⟨x, hasValue_symbol.2 hx⟩
  | power b k =>
    obtain ⟨x, hx⟩ := Option.isSome_iff_exists.1 (everyPart_power.1 hb b rfl)
    have h0 : x = 0 → 0 ≤ k := by
      intro hx0
      by_contra hk
      rw [(everyPart_power.1 he).2 (by omega), hx0] at hx
      exact hY hx
    exact ⟨x ^ k, hasValue_power.2 ⟨x, hx, h0, rfl⟩⟩
  | group b =>
    obtain ⟨x, hx⟩ := exists_hasValue hY (everyPart_group.1 he).2 (everyPart_group.1 hb).2
    exact ⟨x, hasValue_group.2 hx⟩
  | product fs =>
    obtain ⟨xs, hxs⟩ := exists_haveValues hY (everyPart_product.1 he).2 (everyPart_product.1 hb).2
    exact ⟨xs.prod, hasValue_product.2 ⟨xs, hxs, rfl⟩⟩
  | sum ts =>
    obtain ⟨xs, hxs⟩ := exists_haveValues hY (everyPart_sum.1 he).2 (everyPart_sum.1 hb).2
    exact ⟨xs.sum, hasValue_sum.2 ⟨xs, hxs, rfl⟩⟩
  | _ =>
    rename_i n t
    obtain ⟨x, hx⟩ := Option.isSome_iff_exists.1 (everyPart_alias.1 hb n rfl)
    exact ⟨x, hasValue_alias.2 (.inl hx)⟩

theorem exists_haveValues (hY : values "Y" ≠ some 0) {es : List Expr}
    (he : ∀ e ∈ es, EveryPart Emittable e) (hb : ∀ e ∈ es, EveryPart (Bound values) e) :
    ∃ xs, HaveValues values es xs := by
  cases es with
  | nil => exact ⟨[], .nil⟩
  | cons e es =>
    rw [List.forall_mem_cons] at he hb
    obtain ⟨x, hx⟩ := exists_hasValue hY he.1 hb.1
    obtain ⟨xs, hxs⟩ := exists_haveValues hY he.2 hb.2
    exact ⟨x :: xs, .cons hx hxs⟩
end

/-- The name of the expression, if it has one, has the same value in both valuations, and it
has one. -/
def Keeps (values m : String → Option ℚ) (e : Expr) : Prop :=
  ∀ name, e.ownName? = some name → m name = values name ∧ (values name).isSome

mutual
theorem hasValue_of_keeps {m : String → Option ℚ} {e : Expr} {x : ℚ}
    (h : EveryPart (Keeps values m) e) (hx : HasValue values e x) : HasValue m e x := by
  cases e with
  | const v => exact hx
  | symbol n =>
    rw [hasValue_symbol] at hx ⊢
    rw [(everyPart_symbol.1 h n rfl).1, hx]
  | power b k =>
    rw [hasValue_power] at hx ⊢
    rwa [(everyPart_power.1 h b rfl).1]
  | group b =>
    exact hasValue_group.2 (hasValue_of_keeps (everyPart_group.1 h).2 (hasValue_group.1 hx))
  | product fs =>
    obtain ⟨xs, hxs, rfl⟩ := hasValue_product.1 hx
    exact hasValue_product.2 ⟨xs, haveValues_of_keeps (everyPart_product.1 h).2 hxs, rfl⟩
  | sum ts =>
    obtain ⟨xs, hxs, rfl⟩ := hasValue_sum.1 hx
    exact hasValue_sum.2 ⟨xs, haveValues_of_keeps (everyPart_sum.1 h).2 hxs, rfl⟩
  | _ =>
    rename_i n t
    obtain ⟨hm, hsome⟩ := everyPart_alias.1 h n rfl
    rcases hasValue_alias.1 hx with hn | ⟨hn, -⟩
    · exact hasValue_alias.2 (.inl (by rw [hm, hn]))
    · rw [hn] at hsome
      cases hsome

theorem haveValues_of_keeps {m : String → Option ℚ} {es : List Expr} {xs : List ℚ}
    (h : ∀ e ∈ es, EveryPart (Keeps values m) e) (hx : HaveValues values es xs) :
    HaveValues m es xs := by
  cases hx with
  | nil => exact .nil
  | cons hx hxs =>
    rw [List.forall_mem_cons] at h
    exact .cons (hasValue_of_keeps h.1 hx) (haveValues_of_keeps h.2 hxs)
end

theorem Emittable.legible {e : Expr} (h : Emittable e) {bound : ℕ} (hk : ExponentWithin bound e)
    (hbound : bound ≤ 10 ^ 18) : Legible e := by
  have hname : ∀ n, IsSymbol n → IsReference n := fun n ⟨r, hr, _, _, hn⟩ => ⟨r, hr, hn⟩
  cases e with
  | const v => exact h
  | symbol n => exact hname n h
  | power b k => exact ⟨hname b h.1, Text.writable_of_natAbs_le (hk.trans hbound)⟩
  | group b => trivial
  | product fs => trivial
  | sum ts => trivial
  | _ => exact hname _ h

/-- The name of an emittable expression is a symbol. -/
theorem Emittable.isSymbol {e : Expr} (h : Emittable e) {name : String}
    (hn : e.ownName? = some name) : IsSymbol name := by
  cases e with
  | symbol n => injection hn with hn; exact hn ▸ h
  | power b k => injection hn with hn; exact hn ▸ h.1
  | const v => cases hn
  | group b => cases hn
  | product fs => cases hn
  | sum ts => cases hn
  | _ => injection hn with hn; exact hn ▸ h

end Values

/-! ## The statement -/

/-- Values for a case of a family: every name in a raw entry has one, and `Y` is not zero. The
values of short names are not tied to those of their powers. -/
structure Family.Valuation (f : Family) (c : ShellPair) (values : String → Option ℚ) : Prop where
  isSome : ∀ axis ∈ f.axes, ∀ o1 ∈ sidePositions c.rawSizes.1, ∀ o2 ∈ sidePositions c.rawSizes.2,
    ∀ e, f.expand o1 o2 axis = .ok e → ∀ name ∈ e.names, (values name).isSome
  y_ne_zero : values "Y" ≠ some 0

/-- All entries of a matrix stand in the memory under their labels, by row and column counted
from 1. -/
def HoldsMatrix (m : Memory) (label : ℤ → ℤ → String) (rows cols : ℕ) (matrix : List (List ℚ)) :
    Prop :=
  ∀ i < rows, ∀ j < cols, ∃ x, matrixEntry matrix i j = some x ∧ m (label (i + 1) (j + 1)) = some x

/-- The text of a case computes the exact matrices at an axis: the raw lines and then, inside
the loop over the axes, the re-based lines run to the end, and they leave the exact raw and
basis matrices in the cells of the raw and the basis matrix. -/
def Family.Computes (f : Family) (c : ShellPair) (axis : Option ℤ) (values : Memory) : Prop :=
  ∃ t raw basis m m', f.caseText c .standard = .ok t ∧
    f.exactRaw values c axis = .ok raw ∧
    f.exactBasis values c axis = .ok basis ∧
    run [] t.raw values = some m ∧
    run (axisLoop .standard axis) t.rebased m = some m' ∧
    HoldsMatrix m' (matrixLabel f.rawName axis) c.rawSizes.1 c.rawSizes.2 raw ∧
    HoldsMatrix m' (matrixLabel f.basisName axis) c.basisSizes.1 c.basisSizes.2 basis

/-! ## Raw lines -/

section Lines

variable {values : String → Option ℚ} (n : FamilyName)

theorem rawName_eq : n.family.rawName = String.ofList ['w', 'o'] := by cases n <;> rfl

theorem basisName_eq : n.family.basisName = String.ofList ['g'] := by cases n <;> rfl

theorem rawLabel_eq_ok {axis : Option ℤ} (haxis : axis ∈ n.family.axes) {o1 o2 : ℤ}
    (h1 : 1 ≤ o1 ∧ o1 ≤ 20) (h2 : 1 ≤ o2 ∧ o2 ≤ 20) :
    n.family.rawLabel o1 o2 axis = .ok (matrixLabel n.family.rawName axis o1 o2) := by
  have haxes : ∀ a ∈ n.family.axes, ∀ k ∈ a, (k + 1).natAbs ≤ 3 := by cases n <;> decide
  refine (writes_rawLabel n.family o1 o2 axis).eq_ok ⟨fun k hk => ?_, ?_, ?_⟩
  · exact Text.writable_of_natAbs_le ((haxes axis haxis k hk).trans (by decide))
  · exact Text.writable_of_natAbs_le (by omega)
  · exact Text.writable_of_natAbs_le (by omega)

/-- An assignment as characters. -/
theorem assign_eq (target expression : String) :
    Dialect.standard.assign target expression =
      String.ofList (target.toList ++ [' ', '=', ' '] ++ expression.toList) := by
  rw [← String.toList_inj, String.toList_ofList, Dialect.assign]
  have hassignment : Dialect.standard.assignment = " = " := rfl
  rw [hassignment]
  simp

/-- A raw entry has a line and a value, and in any memory that has the values of the symbols
the line stores the value. -/
theorem exists_rawLine {axis : Option ℤ} (haxis : axis ∈ n.family.axes) {o1 o2 : ℤ}
    (h1 : 1 ≤ o1 ∧ o1 ≤ 20) (h2 : 1 ≤ o2 ∧ o2 ≤ 20) (hY : values "Y" ≠ some 0)
    (hb : ∀ e, n.family.expand o1 o2 axis = .ok e → ∀ name ∈ e.names, (values name).isSome) :
    ∃ line x, n.family.entryText .standard o1 o2 axis = .ok line ∧
      n.family.entryValue exactArithmetic .ok values o1 o2 axis = .ok x ∧
      ∀ names, EntriesOf ['w', 'o'] names →
        Stores [] values names line (matrixLabel n.family.rawName axis o1 o2, x) := by
  obtain ⟨e, he, hparts, hexponents⟩ := exists_expand n haxis h1 h2
  have hbound : EveryPart (Bound values) e := everyPart_of_names (hb e he)
  have hlegible : EveryPart Legible e := fun k hk =>
    (hparts k hk).legible (hexponents k hk) (by decide)
  obtain ⟨x, hx⟩ := exists_hasValue hY hparts hbound
  obtain ⟨text, htext⟩ := exists_rendered hlegible hbound hx
  refine ⟨Dialect.standard.assign (matrixLabel n.family.rawName axis o1 o2) text, x, ?_, ?_, ?_⟩
  · simp [Family.entryText, he, rawLabel_eq_ok n haxis h1 h2, htext.render_eq, Except.mapError,
      bind, Except.bind]
  · have hvalue : e.eval exactArithmetic values = .ok x := hx
    simp [Family.entryValue, he, hvalue, Except.mapError, bind, Except.bind]
  · intro names hnames m hm
    -- no symbol is among the cells stored in, so the memory still has the symbols' values
    have hkeep : EveryPart (Keeps values m) e := by
      intro k hk name hname
      exact ⟨hm name (hnames.symbol_notMem .raw ((hparts k hk).isSymbol hname)),
        hbound k hk name hname⟩
    have hbound' : EveryPart (Bound m) e := by
      intro k hk name hname
      rw [(hkeep k hk name hname).1]
      exact (hkeep k hk name hname).2
    obtain ⟨text', htext'⟩ := exists_rendered hlegible hbound' (hasValue_of_keeps hkeep hx)
    have hsame : text = text' := by
      have h := htext.render_eq.symm.trans htext'.render_eq
      injection h
    have hdenotes : Denotes (m.fetch []) .sum text.toList x := by
      rw [Memory.fetch_nil, hsame]
      exact htext'.sum
    have hexec := execute_assignment (IsMatrix.raw.wellFormed axis o1 o2) hdenotes
    rw [Reference.inLoop_nil] at hexec
    rw [rawName_eq, matrixLabel_eq_text, assign_eq, Reference.text,
      String.toList_ofList]
    exact hexec

/-- A raw entry has a line in every dialect. -/
theorem exists_entryText (d : Dialect) {axis : Option ℤ} (haxis : axis ∈ n.family.axes) {o1 o2 : ℤ}
    (h1 : 1 ≤ o1 ∧ o1 ≤ 20) (h2 : 1 ≤ o2 ∧ o2 ≤ 20) :
    ∃ line, n.family.entryText d o1 o2 axis = .ok line := by
  obtain ⟨e, he, hparts, hexponents⟩ := exists_expand n haxis h1 h2
  -- any values do, the text does not depend on them
  let values : String → Option ℚ := fun _ => some 1
  have hbound : EveryPart (Bound values) e := fun _ _ _ _ => rfl
  have hY : values "Y" ≠ some 0 := by simp [values]
  have hlegible : EveryPart Legible e := fun k hk =>
    (hparts k hk).legible (hexponents k hk) (by decide)
  obtain ⟨x, hx⟩ := exists_hasValue hY hparts hbound
  obtain ⟨text, htext⟩ := exists_rendered hlegible hbound hx
  refine ⟨d.assign (matrixLabel n.family.rawName axis o1 o2) text, ?_⟩
  simp [Family.entryText, he, rawLabel_eq_ok n haxis h1 h2, htext.render_eq, Except.mapError, bind,
    Except.bind]

/-! ## Re-based lines -/

/-- The entries in the lines of a family have the loop index in front if it has axes. -/
theorem entryLabel_cellForm {axis : Option ℤ} (haxis : axis ∈ n.family.axes) (w : List Char)
    (row col : ℤ) :
    entryLabel (String.ofList w) (n.family.cellForm .standard).index row col =
      (matrixReference w (loopIndices axis) row col).text := by
  have hi : IsWord axisVariable.word := isWord_of_all (by decide)
  cases n with
  | nuclear =>
    rw [List.mem_singleton.1 haxis]
    exact entryLabel_plain w row col
  | kinetic =>
    rw [List.mem_singleton.1 haxis]
    exact entryLabel_plain w row col
  | momentum =>
    have hcases : axis = some 0 ∨ axis = some 1 ∨ axis = some 2 := by
      simpa [FamilyName.family, Family.momentum] using haxis
    have hloop : loopIndices axis = [axisVariable] := by
      rcases hcases with rfl | rfl | rfl <;> rfl
    rw [hloop]
    exact entryLabel_indexed w hi row col

/-- Inside the loop a raw entry is fetched from the cell of the axis. -/
theorem fetch_rawEntry (m : Memory) (axis : Option ℤ) (row col : ℤ) :
    m.fetch (axisLoop .standard axis) (matrixReference ['w', 'o'] (loopIndices axis) row col) =
      m (matrixLabel n.family.rawName axis row col) := by
  rw [Memory.fetch, inLoop_matrixReference, rawName_eq, matrixLabel_eq_text]

/-- The characters of the line of a basis entry. -/
theorem rebasedLine_eq {axis : Option ℤ} (haxis : axis ∈ n.family.axes) {f : Formula} {s : String}
    (hs : formulaLabel (n.family.cellForm .standard) f = " " ++ s) (row col : ℤ) :
    rebasedLine (n.family.cellForm .standard) f row col =
      String.ofList ((matrixReference ['g'] (loopIndices axis) row col).chars ++ [' ', '=', ' '] ++
        s.toList) := by
  have htarget : entryLabel (n.family.cellForm .standard).target
      (n.family.cellForm .standard).index row col =
        (matrixReference ['g'] (loopIndices axis) row col).text := by
    rw [← entryLabel_cellForm n haxis, ← basisName_eq n]
    rfl
  have hblank : Text.strippedEnd (n.family.cellForm .standard).assignment = " =" := by
    have h : Text.strippedEnd " = " = " =" := by decide +kernel
    exact h
  rw [rebasedLine, htarget, hblank, hs, ← String.toList_inj, String.toList_ofList, Reference.text]
  simp

/-- A re-based line stores the weighted sum of its formula in any memory that has the raw
entries of the axis. -/
theorem stores_rebasedLine {axis : Option ℤ} (haxis : axis ∈ n.family.axes) {rows cols : ℕ}
    {f : Formula} (hne : f ≠ []) (hrange : f.InRange rows cols) {x : ℤ → ℤ → ℚ} {m : Memory}
    (hm : ∀ row ∈ sidePositions rows, ∀ col ∈ sidePositions cols,
      m (matrixLabel n.family.rawName axis row col) = some (x row col))
    {names : List String} (hnames : EntriesOf ['g'] names) (row col : ℤ) :
    Stores (axisLoop .standard axis) m names
      (rebasedLine (n.family.cellForm .standard) f row col)
      (matrixLabel n.family.basisName axis row col, f.value x) := by
  intro m' hm'
  have hwf : ∀ {w : List Char}, IsMatrix w → ∀ r c : ℤ,
      (matrixReference w (loopIndices axis) r c).WellFormed :=
    fun hw r c => wellFormed_matrixReference hw.isName hw.isWord (isWord_loopIndices axis) r c
  have hsource : ∀ w ∈ f, SourceDenotes (m'.fetch (axisLoop .standard axis))
      (n.family.cellForm .standard) x w := by
    intro w hw
    obtain ⟨hr, hc⟩ := hrange w hw
    have htext : entryLabel (n.family.cellForm .standard).source
        (n.family.cellForm .standard).index w.row w.col =
          (matrixReference ['w', 'o'] (loopIndices axis) w.row w.col).text := by
      rw [← entryLabel_cellForm n haxis, ← rawName_eq n]
      rfl
    -- the lines store in basis entries only, so the raw entries are still there
    have hfetch : m'.fetch (axisLoop .standard axis)
        (matrixReference ['w', 'o'] (loopIndices axis) w.row w.col) = some (x w.row w.col) := by
      rw [fetch_rawEntry n, ← hm w.row hr w.col hc]
      apply hm'
      rw [rawName_eq]
      exact hnames.matrixLabel_notMem .basis .raw (by decide) axis w.row w.col
    rw [SourceDenotes, htext, Reference.text, String.toList_ofList]
    exact (Denotes.reference (hwf .raw _ _) hfetch).factor.term
  obtain ⟨s, hs, hdenotes⟩ := exists_formulaLabel hne hsource
  rw [rebasedLine_eq n haxis hs, execute_assignment (hwf .basis _ _) hdenotes,
    inLoop_matrixReference, basisName_eq, matrixLabel_eq_text]

end Lines

/-! ## Orders -/

theorem mem_entryOrder {f : Family} {c : ShellPair} {p : Option ℤ × ℤ × ℤ} :
    p ∈ f.entryOrder c ↔
      p.1 ∈ f.axes ∧ p.2.1 ∈ sidePositions c.rawSizes.1 ∧ p.2.2 ∈ sidePositions c.rawSizes.2 := by
  obtain ⟨axis, o1, o2⟩ := p
  simp only [Family.entryOrder, List.mem_flatMap, List.mem_map, Prod.mk.injEq]
  constructor
  · rintro ⟨_, ha, _, h2, _, h1, rfl, rfl, rfl⟩
    exact ⟨ha, h1, h2⟩
  · rintro ⟨ha, h1, h2⟩
    exact ⟨axis, ha, o2, h2, o1, h1, rfl, rfl, rfl⟩

theorem nodup_axes (n : FamilyName) : n.family.axes.Nodup := by cases n <;> decide

theorem nodup_entryOrder {f : Family} (haxes : f.axes.Nodup) (c : ShellPair) :
    (f.entryOrder c).Nodup := by
  refine nodup_flatMap_of_key Prod.fst Function.injective_id haxes (fun axis _ => ?_) ?_
  · refine nodup_flatMap_of_key (fun p => p.2.2) Function.injective_id (nodup_sidePositions _)
      (fun o2 _ => ?_) ?_
    · exact (nodup_sidePositions _).map fun a b h => (Prod.mk.inj (Prod.mk.inj h).2).1
    · intro o2 _ p hp
      obtain ⟨o1, -, rfl⟩ := List.mem_map.1 hp
      rfl
  · intro axis _ p hp
    simp only [List.mem_flatMap, List.mem_map] at hp
    obtain ⟨o2, -, o1, -, rfl⟩ := hp
    rfl

/-! ## The two runs -/

section Runs

variable {values : String → Option ℚ} (n : FamilyName) (c : ShellPair)

/-- Orbitals are counted from 1, up to 20. -/
theorem bounds_of_mem_sidePositions {shell : Shell} {o : ℤ}
    (h : o ∈ sidePositions shell.rawSize) : 1 ≤ o ∧ o ≤ 20 := by
  have hsize : shell.rawSize ≤ 20 := by cases shell <;> decide
  rw [mem_sidePositions] at h
  omega

/-- The raw lines of a pair of shells store the raw entries of all axes. -/
theorem exists_rawRun (h : n.family.Valuation c values) :
    ∃ lines m, ∃ x : Option ℤ → ℤ → ℤ → ℚ,
      ((n.family.entryOrder c).mapM fun (axis, o1, o2) => n.family.entryText .standard o1 o2 axis) =
        .ok lines ∧
      run [] lines values = some m ∧
      ∀ axis ∈ n.family.axes,
        n.family.exactRaw values c axis = .ok (matrixOf c.rawSizes.1 c.rawSizes.2 (x axis)) ∧
        ∀ o1 ∈ sidePositions c.rawSizes.1, ∀ o2 ∈ sidePositions c.rawSizes.2,
          m (matrixLabel n.family.rawName axis o1 o2) = some (x axis o1 o2) := by
  have hline : ∀ p : Option ℤ × ℤ × ℤ, p ∈ n.family.entryOrder c → ∃ line x,
      n.family.entryText .standard p.2.1 p.2.2 p.1 = .ok line ∧
      n.family.entryValue exactArithmetic .ok values p.2.1 p.2.2 p.1 = .ok x ∧
      ∀ names, EntriesOf ['w', 'o'] names →
        Stores [] values names line (matrixLabel n.family.rawName p.1 p.2.1 p.2.2, x) := by
    intro p hp
    obtain ⟨haxis, h1, h2⟩ := mem_entryOrder.1 hp
    exact exists_rawLine n haxis (bounds_of_mem_sidePositions h1) (bounds_of_mem_sidePositions h2)
      h.y_ne_zero (h.isSome p.1 haxis p.2.1 h1 p.2.2 h2)
  choose! line x htext hvalue hstores using hline
  let cell : Option ℤ × ℤ × ℤ → Cell := fun p => (matrixLabel n.family.rawName p.1 p.2.1 p.2.2, x p)
  have htargets : targets ((n.family.entryOrder c).map cell) =
      (n.family.entryOrder c).map fun p =>
        matrixLabel (String.ofList ['w', 'o']) p.1 p.2.1 p.2.2 := by
    simp only [targets, cell, List.map_map, Function.comp_def, rawName_eq]
  have hnames : EntriesOf ['w', 'o'] (targets ((n.family.entryOrder c).map cell)) := by
    intro k hk
    rw [htargets, List.mem_map] at hk
    obtain ⟨p, -, rfl⟩ := hk
    exact ⟨p.1, p.2.1, p.2.2, rfl⟩
  have hnodup : (targets ((n.family.entryOrder c).map cell)).Nodup := by
    rw [htargets]
    refine (nodup_entryOrder (nodup_axes n) c).map_on fun p _ q _ hpq => ?_
    obtain ⟨-, ha, hr, hc⟩ := matrixLabel_injective .raw .raw hpq
    exact Prod.ext ha (Prod.ext hr hc)
  obtain ⟨m, hrun, hcells, -⟩ := run_stores hnodup fun p hp => hstores p hp _ hnames
  refine ⟨_, m, fun axis o1 o2 => x (axis, o1, o2), mapM_eq_ok (g := line) ?_, hrun,
    fun axis haxis => ?_⟩
  · intro p hp
    obtain ⟨axis, o1, o2⟩ := p
    exact htext (axis, o1, o2) hp
  have hmem : ∀ o1 ∈ sidePositions c.rawSizes.1, ∀ o2 ∈ sidePositions c.rawSizes.2,
      (axis, o1, o2) ∈ n.family.entryOrder c :=
    fun o1 h1 o2 h2 => mem_entryOrder.2 ⟨haxis, h1, h2⟩
  constructor
  · have hentry : ∀ o1 ∈ sidePositions c.rawSizes.1, ∀ o2 ∈ sidePositions c.rawSizes.2,
        n.family.entryValue exactArithmetic .ok values o1 o2 axis = .ok (x (axis, o1, o2)) :=
      fun o1 h1 o2 h2 => hvalue (axis, o1, o2) (hmem o1 h1 o2 h2)
    exact mapM_matrix_eq_ok hentry
  · exact fun o1 h1 o2 h2 => hcells (axis, o1, o2) (hmem o1 h1 o2 h2)

/-- The re-based lines, run after the raw lines at one axis, store the basis entries and leave
the raw entries. -/
theorem exists_rebasedRun {axis : Option ℤ} (haxis : axis ∈ n.family.axes) {x : ℤ → ℤ → ℚ}
    {m : Memory} (hm : ∀ row ∈ sidePositions c.rawSizes.1, ∀ col ∈ sidePositions c.rawSizes.2,
      m (matrixLabel n.family.rawName axis row col) = some (x row col)) :
    ∃ lines m', ∃ y : ℤ → ℤ → ℚ,
      n.family.table.render (n.family.cellForm .standard) c.basisSizes.1 c.basisSizes.2 =
        .ok lines ∧
      run (axisLoop .standard axis) lines m = some m' ∧
      n.family.table.applyExact (matrixOf c.rawSizes.1 c.rawSizes.2 x) c.rawSizes.1 c.rawSizes.2
        c.basisSizes.1 c.basisSizes.2 = .ok (matrixOf c.basisSizes.1 c.basisSizes.2 y) ∧
      (∀ row ∈ sidePositions c.rawSizes.1, ∀ col ∈ sidePositions c.rawSizes.2,
        m' (matrixLabel n.family.rawName axis row col) = some (x row col)) ∧
      ∀ row ∈ sidePositions c.basisSizes.1, ∀ col ∈ sidePositions c.basisSizes.2,
        m' (matrixLabel n.family.basisName axis row col) = some (y row col) := by
  have hformula : ∀ row ∈ sidePositions c.basisSizes.1, ∀ col ∈ sidePositions c.basisSizes.2,
      ∃ f, n.family.table.formula row col = .ok f ∧ f ≠ [] ∧
        Formula.InRange c.rawSizes.1 c.rawSizes.2 f ∧ f.Writable :=
    fun row hr col hc => (serves_family n).exists_formula c hr hc
  choose! f hf hne hrange hwritable using hformula
  let order := blockOrder c.basisSizes.1 c.basisSizes.2
  let cell : ℤ × ℤ → Cell := fun p =>
    (matrixLabel n.family.basisName axis p.1 p.2, (f p.1 p.2).value x)
  have htargets : targets (order.map cell) =
      order.map fun p => matrixLabel (String.ofList ['g']) axis p.1 p.2 := by
    simp only [targets, cell, List.map_map, Function.comp_def, basisName_eq]
  have hnames : EntriesOf ['g'] (targets (order.map cell)) := by
    intro k hk
    rw [htargets, List.mem_map] at hk
    obtain ⟨p, -, rfl⟩ := hk
    exact ⟨axis, p.1, p.2, rfl⟩
  have hnodup : (targets (order.map cell)).Nodup := by
    rw [htargets]
    refine (nodup_blockOrder _ _).map_on fun p _ q _ hpq => ?_
    obtain ⟨-, -, hr, hc⟩ := matrixLabel_injective .basis .basis hpq
    exact Prod.ext hr hc
  have hstores : ∀ p ∈ order, Stores (axisLoop .standard axis) m (targets (order.map cell))
      (rebasedLine (n.family.cellForm .standard) (f p.1 p.2) p.1 p.2) (cell p) := by
    intro p hp
    obtain ⟨hr, hc⟩ := mem_blockOrder.1 hp
    exact stores_rebasedLine n haxis (hne _ hr _ hc) (hrange _ hr _ hc) hm hnames p.1 p.2
  obtain ⟨m', hrun, hcells, hoff⟩ := run_stores hnodup hstores
  refine ⟨_, m', fun row col => (f row col).value x, ?_, hrun, ?_, ?_, ?_⟩
  · exact RebasingTable.render_eq_ok (writable_basisSize c.first) (writable_basisSize c.second)
      hf hwritable
  · exact applyExact_eq_ok x fun row hr col hc => ⟨hf row hr col hc, hrange row hr col hc⟩
  · intro row hr col hc
    rw [← hm row hr col hc]
    apply hoff
    rw [rawName_eq]
    exact hnames.matrixLabel_notMem .basis .raw (by decide) axis row col
  · exact fun row hr col hc => hcells (row, col) (mem_blockOrder.2 ⟨hr, hc⟩)

theorem holdsMatrix_matrixOf {m : Memory} {label : ℤ → ℤ → String} {rows cols : ℕ}
    {x : ℤ → ℤ → ℚ} (h : ∀ row ∈ sidePositions rows, ∀ col ∈ sidePositions cols,
      m (label row col) = some (x row col)) :
    HoldsMatrix m label rows cols (matrixOf rows cols x) := by
  intro i hi j hj
  refine ⟨_, matrixEntry_matrixOf x hi hj, ?_⟩
  exact h _ (mem_sidePositions.2 ⟨by omega, by omega⟩) _ (mem_sidePositions.2 ⟨by omega, by omega⟩)

/-- **The emitted program computes the exact matrices**, for every family, every pair of
shells, every axis of the family and all values of the names. -/
theorem computes_caseText {axis : Option ℤ} (haxis : axis ∈ n.family.axes)
    (h : n.family.Valuation c values) : n.family.Computes c axis values := by
  obtain ⟨raw, m, x, htext, hrun, hraw⟩ := exists_rawRun n c h
  obtain ⟨hexact, hm⟩ := hraw axis haxis
  obtain ⟨rebased, m', y, hrender, hrun', happly, hraw', hbasis⟩ :=
    exists_rebasedRun n c haxis hm
  refine ⟨⟨n.family.name, c, raw, rebased⟩, _, _, m, m', ?_, hexact, ?_, hrun, hrun',
    holdsMatrix_matrixOf hraw', holdsMatrix_matrixOf hbasis⟩
  · rw [Family.caseText, htext, hrender]
    rfl
  · rw [Family.exactBasis, hexact]
    simp only [bind, Except.bind, happly, Except.mapError]

end Runs

/-- Values for the names of the momentum integrals. -/
def momentumPoint : String → Option ℚ
  | "preFactor" => some 3
  | "a2" => some (1 / 2)
  | "Y" => some 2
  | "PA(1)" => some (-1)
  | "PA(2)" => some (1 / 3)
  | "PB(1)" => some 5
  | _ => some 1

/-- The momentum integrals of a p shell and a d shell along the second axis. -/
theorem computes_caseText_momentum :
    some 1 ∈ FamilyName.momentum.family.axes ∧
      FamilyName.momentum.family.Valuation ⟨.p, .d⟩ momentumPoint ∧
      FamilyName.momentum.family.Computes ⟨.p, .d⟩ (some 1) momentumPoint := by
  have haxis : some 1 ∈ FamilyName.momentum.family.axes := by decide
  have hY : momentumPoint "Y" = some 2 := rfl
  have hvaluation : FamilyName.momentum.family.Valuation ⟨.p, .d⟩ momentumPoint := by
    refine ⟨fun _ _ _ _ _ _ _ _ name _ => ?_, ?_⟩
    · unfold momentumPoint
      split <;> rfl
    · rw [hY]
      decide
  exact ⟨haxis, hvaluation, computes_caseText .momentum ⟨.p, .d⟩ haxis hvaluation⟩

end GaussianIntegrals
