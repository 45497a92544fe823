/-
  Straight-line programs of the generated code: lines that assign the value of arithmetic to a
  variable or a matrix entry, run one after another in exact arithmetic. Inside a loop, loop
  variables among the indices stand for their values.

  A line is one step (`execute_assignment`). Where each line stores its value as long as the
  memory is unchanged away from the cells that the program stores in, the run stores all
  values and changes nothing else (`run_stores`).
-/
import GaussianIntegrals.Proofs.Code.Denotes
import Mathlib.Logic.Function.Basic

namespace GaussianIntegrals.Code

/-- The values of the loop variables. -/
abbrev Loop := List (List Char × ℤ)

/-- The index with the digits of an integer. -/
def Index.ofInt (k : ℤ) : Index := ⟨decide (k < 0), Nat.toDigits 10 k.natAbs⟩

/-- The index with the value of a loop variable in its place. -/
def Index.inLoop (loop : Loop) (i : Index) : Index :=
  match loop.lookup i.word with
  | some k => .ofInt (if i.negative then -k else k)
  | none => i

/-- The reference with the values of the loop variables among its indices. -/
def Reference.inLoop (loop : Loop) (r : Reference) : Reference :=
  { r with indices := r.indices.map (Index.inLoop loop) }

/-- The values of variables and matrix entries by their text. -/
abbrev Memory := String → Option ℚ

/-- The value that the memory holds for a reference. -/
def Memory.fetch (m : Memory) (loop : Loop) (r : Reference) : Option ℚ := m (r.inLoop loop).text

/-- An assignment of the value of arithmetic. -/
structure Assignment where
  target : Reference
  source : Arith

/-- Reads a line: a reference, the assignment sign and arithmetic. -/
def readAssignment (line : String) : Option Assignment :=
  let ts := tokens line
  match read (ts.takeWhile (· != .equals)), ts.dropWhile (· != .equals) with
  | some (.reference r), .equals :: us => (read us).map fun a => ⟨r, a⟩
  | _, _ => none

/-- Stores the value of an assignment, if it has one. -/
def Assignment.execute (loop : Loop) (m : Memory) (s : Assignment) : Option Memory := do
  let x ← s.source.value (m.fetch loop)
  some (Function.update m (s.target.inLoop loop).text (some x))

/-- Executes one line. -/
def execute (loop : Loop) (m : Memory) (line : String) : Option Memory := do
  (← readAssignment line).execute loop m

/-- Executes lines, one after another. -/
def run (loop : Loop) (lines : List String) (m : Memory) : Option Memory :=
  lines.foldlM (execute loop) m

/-! ## Indices in a loop -/

theorem Index.chars_ofInt (k : ℤ) : (Index.ofInt k).chars = (toString k).toList := by
  rw [toList_intText, Index.chars, Index.ofInt]
  simp only [decide_eq_true_eq]

theorem Index.isWord_ofInt (k : ℤ) : IsWord (Index.ofInt k).word :=
  ⟨Nat.toDigits_ne_nil, fun _ hc =>
    isWordChar_of_isDigit (Nat.isDigit_of_mem_toDigits (by decide) (by decide) hc)⟩

/-- Digits are no loop variable. -/
theorem Index.inLoop_ofInt {loop : Loop} (h : ∀ p ∈ loop, isName p.1 = true) (k : ℤ) :
    (Index.ofInt k).inLoop loop = Index.ofInt k := by
  have hnone : loop.lookup (Index.ofInt k).word = none := by
    rw [List.lookup_eq_none_iff]
    intro p hp
    rw [bne_iff_ne]
    intro heq
    have hname := h p hp
    rw [← heq] at hname
    have hdigits := isName_of_numeral (numeral?_toDigits k.natAbs)
    rw [Index.ofInt, hdigits] at hname
    cases hname
  rw [Index.inLoop, hnone]

theorem Reference.inLoop_nil (r : Reference) : r.inLoop [] = r := by
  have h : Index.inLoop [] = id := rfl
  rw [Reference.inLoop, h, List.map_id]

theorem Memory.fetch_nil (m : Memory) : m.fetch [] = fun r => m r.text := by
  funext r
  rw [Memory.fetch, Reference.inLoop_nil]

/-! ## One line -/

theorem equals_notMem_indexTokens (is : List Index) : .equals ∉ indexTokens is := by
  have hone : ∀ i : Index, .equals ∉ i.tokens := by
    intro i
    unfold Index.tokens
    split <;> simp
  induction is with
  | nil => simp [indexTokens]
  | cons i is ih =>
    cases is with
    | nil => exact hone i
    | cons j js =>
      have htokens : indexTokens (i :: j :: js) = i.tokens ++ .comma :: indexTokens (j :: js) :=
        rfl
      rw [htokens, List.mem_append, List.mem_cons]
      rintro (h | h | h)
      · exact hone i h
      · cases h
      · exact ih h

theorem equals_notMem_tokens (r : Reference) : .equals ∉ r.tokens := by
  unfold Reference.tokens
  split
  · simp
  · simp [equals_notMem_indexTokens]

/-- A line of a reference, the assignment sign between blanks and a text with a value stores
the value. -/
theorem execute_assignment {loop : Loop} {m : Memory} {r : Reference} {s : List Char} {x : ℚ}
    (hr : r.WellFormed) (hs : Denotes (m.fetch loop) .sum s x) :
    execute loop m (String.ofList (r.chars ++ [' ', '=', ' '] ++ s)) =
      some (Function.update m (r.inLoop loop).text (some x)) := by
  obtain ⟨ts, a, hs, ha, hx⟩ := hs
  have hscan : Scans (r.chars ++ [' ', '=', ' '] ++ s) (r.tokens ++ .equals :: ts) := by
    simpa [symbolToken] using hr.scans.spaced (o := '=') (by decide) (by decide) hs
  have htokens : tokens (String.ofList (r.chars ++ [' ', '=', ' '] ++ s)) =
      r.tokens ++ .equals :: ts := by
    apply Scans.tokens_eq
    rwa [String.toList_ofList]
  have hkeep : ∀ t ∈ r.tokens, (t != .equals) = true := by
    intro t ht
    rw [bne_iff_ne]
    rintro rfl
    exact equals_notMem_tokens r ht
  have hread : readAssignment (String.ofList (r.chars ++ [' ', '=', ' '] ++ s)) = some ⟨r, a⟩ := by
    have hl : (r.tokens ++ .equals :: ts).takeWhile (· != .equals) = r.tokens := by
      rw [List.takeWhile_append_of_pos hkeep]
      simp
    have hd : (r.tokens ++ .equals :: ts).dropWhile (· != .equals) = .equals :: ts := by
      rw [List.dropWhile_append_of_pos hkeep]
      simp
    simp only [readAssignment, htokens, hl, hd, (reads_reference hr.name_isName).read_eq,
      ha.read_eq, Option.map_some]
  simp only [execute, hread, Option.bind_eq_bind, Option.bind_some, Assignment.execute, hx]

/-! ## Runs -/

/-- A cell by its text, and the value stored there. -/
abbrev Cell := String × ℚ

/-- The cells that are stored in. -/
def targets (cells : List Cell) : List String := cells.map Prod.fst

/-- The memories are equal away from some cells. -/
def AgreeOff (names : List String) (m m' : Memory) : Prop := ∀ n, n ∉ names → m' n = m n

/-- The line stores the value of the cell in every memory that agrees with a given one away
from some cells. -/
def Stores (loop : Loop) (m : Memory) (names : List String) (line : String) (cell : Cell) : Prop :=
  ∀ m', AgreeOff names m m' →
    execute loop m' line = some (Function.update m' cell.1 (some cell.2))

theorem AgreeOff.update {names : List String} {m m' : Memory} (h : AgreeOff names m m')
    {n : String} (hn : n ∈ names) (x : Option ℚ) : AgreeOff names m (Function.update m' n x) := by
  intro k hk
  have hne : k ≠ n := by
    rintro rfl
    exact hk hn
  rw [Function.update_of_ne hne, h k hk]

section Runs

variable {ι : Type} {loop : Loop} {m : Memory} {order : List ι} {line : ι → String}
  {cell : ι → Cell}

/-- Lines that store values in different cells, whatever the other lines among them have
stored, store all of them. -/
theorem run_stores_from {names : List String}
    (h : ∀ p ∈ order, Stores loop m names (line p) (cell p))
    (hsub : ∀ n ∈ targets (order.map cell), n ∈ names) (hnodup : (targets (order.map cell)).Nodup)
    {m₁ : Memory} (hm₁ : AgreeOff names m m₁) :
    ∃ m₂, run loop (order.map line) m₁ = some m₂ ∧
      (∀ p ∈ order, m₂ (cell p).1 = some (cell p).2) ∧
      AgreeOff (targets (order.map cell)) m₁ m₂ := by
  induction order generalizing m₁ with
  | nil => exact ⟨m₁, rfl, by simp, fun n _ => rfl⟩
  | cons p order ih =>
    rw [List.forall_mem_cons] at h
    have hsub' : (cell p).1 ∈ names ∧ ∀ n ∈ targets (order.map cell), n ∈ names := by
      simpa [targets] using hsub
    have hnodup' : (cell p).1 ∉ targets (order.map cell) ∧ (targets (order.map cell)).Nodup := by
      rw [List.map_cons, targets, List.map_cons, List.nodup_cons] at hnodup
      exact hnodup
    obtain ⟨m₂, hrun, hcells, hoff⟩ :=
      ih h.2 hsub'.2 hnodup'.2 (hm₁.update hsub'.1 (some (cell p).2))
    refine ⟨m₂, ?_, ?_, ?_⟩
    · rw [run, List.map_cons, List.foldlM_cons, h.1 m₁ hm₁]
      exact hrun
    · rw [List.forall_mem_cons]
      refine ⟨?_, hcells⟩
      rw [hoff (cell p).1 hnodup'.1, Function.update_self]
    · intro n hn
      rw [List.map_cons, targets, List.map_cons, List.mem_cons, not_or] at hn
      rw [hoff n hn.2, Function.update_of_ne hn.1]

theorem run_stores (hnodup : (targets (order.map cell)).Nodup)
    (h : ∀ p ∈ order, Stores loop m (targets (order.map cell)) (line p) (cell p)) :
    ∃ m', run loop (order.map line) m = some m' ∧
      (∀ p ∈ order, m' (cell p).1 = some (cell p).2) ∧
      AgreeOff (targets (order.map cell)) m m' :=
  run_stores_from h (fun _ hn => hn) hnodup fun _ _ => rfl

end Runs

end GaussianIntegrals.Code
