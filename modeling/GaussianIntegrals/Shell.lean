/-
  Shells and pairs of shells. A pair has a switch code, by which the generated code selects
  its branch, and the sizes of its raw and of its basis block.
-/
import GaussianIntegrals.Index
import GaussianIntegrals.Text.Integer

namespace GaussianIntegrals

/-- A shell of orbitals. -/
inductive Shell where
  | s
  | p
  | d
  | f
  deriving DecidableEq, Repr

namespace Shell

/-- The shells by rank. -/
def all : List Shell := [.s, .p, .d, .f]

/-- The angular momentum. -/
def rank : Shell → Nat
  | .s => 0
  | .p => 1
  | .d => 2
  | .f => 3

/-- The letter. -/
def letter : Shell → String
  | .s => "s"
  | .p => "p"
  | .d => "d"
  | .f => "f"

/-- The number of Cartesian orbitals up to the shell. -/
def rawSize : Shell → Nat
  | .s => 1
  | .p => 4
  | .d => 10
  | .f => 20

/-- The number of basis functions up to the shell. -/
def basisSize : Shell → Nat
  | .s => 1
  | .p => 4
  | .d => 9
  | .f => 16

/-- The shell at an index; negative indices count from the end. -/
def ofIndex? (i : Int) : Option Shell := pick? all i

/-- The shell of a rank. -/
def ofRank? (i : Int) : Option Shell := if 0 ≤ i then all[i.toNat]? else none

end Shell

/-- Why a pair of shells is not available. -/
inductive ShellError where
  /-- No shell has this rank. -/
  | rank (value : Int)
  /-- An index selects no shell. -/
  | index
  /-- No pair has this switch code. -/
  | code (value : Int)
  deriving DecidableEq, Repr

/-- The wording of a shell error. -/
def ShellError.message : ShellError → String
  | .rank value => Text.showInt value fun n => s!"Shell {n} outside 0..{Shell.all.length - 1}"
  | .index => "tuple index out of range"
  | .code value => Text.showInt value fun n => s!"No generation case for switch code {n}"

/-- The shells of orbital 1 and of orbital 2. -/
structure ShellPair where
  first : Shell
  second : Shell
  deriving DecidableEq, Repr

namespace ShellPair

/-- Two to the first rank, plus sixteen times two to the second. -/
def switchCode (c : ShellPair) : Nat := Nat.pow 2 c.first.rank + 16 * Nat.pow 2 c.second.rank

/-- The letters, as in `p-d`. -/
def label (c : ShellPair) : String := s!"{c.first.letter}-{c.second.letter}"

/-- Rows and columns of the raw block. -/
def rawSizes (c : ShellPair) : Nat × Nat := (c.first.rawSize, c.second.rawSize)

/-- Rows and columns of the basis block. -/
def basisSizes (c : ShellPair) : Nat × Nat := (c.first.basisSize, c.second.basisSize)

/-- The pair of two ranks. -/
def ofRanks (first second : Int) : Except ShellError ShellPair :=
  match Shell.ofRank? first, Shell.ofRank? second with
  | none, _ => .error (.rank first)
  | some _, none => .error (.rank second)
  | some a, some b => .ok ⟨a, b⟩

/-- The pair at two indices, negative ones counting from the end. -/
def ofIndices (first second : Int) : Except ShellError ShellPair :=
  match Shell.ofIndex? first, Shell.ofIndex? second with
  | some a, some b => .ok ⟨a, b⟩
  | _, _ => .error .index

/-- All pairs in the order of their branches: p-p and s-s first, f-f last. -/
def all : List ShellPair :=
  ⟨.p, .p⟩ :: (Shell.all.flatMap fun a => Shell.all.map fun b => ⟨a, b⟩).filter (· ≠ ⟨.p, .p⟩)

/-- The pair with a switch code. -/
def ofSwitchCode (code : Int) : Except ShellError ShellPair :=
  match all.find? fun c => c.switchCode == code with
  | some c => .ok c
  | none => .error (.code code)

end ShellPair

end GaussianIntegrals
