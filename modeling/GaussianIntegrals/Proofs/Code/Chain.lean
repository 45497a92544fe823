/-
  Chains of branches in the generated code: the lines of a text read as `if`, `else if`, `else` and
  `end if` over one variable, and what such a chain executes for a value of the variable.

  A line counts without its blanks and in small letters. The reader takes the lines of a body up to
  the next header (`readBranches_append`), so a chain is read header by header: a header with its
  code and its body goes in front of the chain behind it (`readBranches_next`,
  `readChain_opening`), an `else` is the end of a chain (`readBranches_otherwise`).
-/
import GaussianIntegrals.Proofs.Code.Numeral
import GaussianIntegrals.Proofs.IntegerTexts

namespace GaussianIntegrals.Code

/-! ## Lines -/

/-- What a line is to a chain of branches. -/
inductive LineKind where
  | opening (condition : List Char)
  | next (condition : List Char)
  | otherwise
  | closing
  | statement
  deriving DecidableEq, Repr

/-- The words of headers without blanks. -/
def ifWord : List Char := ['i', 'f', '(']

def elseWord : List Char := ['e', 'l', 's', 'e']

def thenWord : List Char := [')', 't', 'h', 'e', 'n']

def endWord : List Char := ['e', 'n', 'd', 'i', 'f']

/-- The sign of comparison. -/
def equalsSign : List Char := ['.', 'e', 'q', '.']

/-- The characters of a line that count: no blanks, and letters as small letters. -/
def bare (line : List Char) : List Char := (line.filter (!Text.isBlank ·)).map Char.toLower

/-- What stands between two texts. -/
def between? (before after cs : List Char) : Option (List Char) :=
  (cs.dropPrefix? before).bind (·.dropSuffix? after)

/-- The kind of a line. -/
def lineKind (line : List Char) : LineKind :=
  if bare line = elseWord then .otherwise
  else if bare line = endWord then .closing
  else
    match between? ifWord thenWord (bare line),
      between? (elseWord ++ ifWord) thenWord (bare line) with
    | some condition, _ => .opening condition
    | none, some condition => .next condition
    | none, none => .statement

/-- The line has a character that is not blank. -/
def isInked (line : List Char) : Bool := line.any (!Text.isBlank ·)

/-- The integer that digits denote, a minus sign in front of them or none. -/
def integerText? : List Char → Option ℤ
  | '-' :: digits => (natural? digits).map fun n : ℕ => -(n : ℤ)
  | digits => (natural? digits).map fun n : ℕ => (n : ℤ)

/-- The integer that a condition compares the variable with. -/
def caseCode? (name condition : List Char) : Option ℤ :=
  (condition.dropPrefix? (name ++ equalsSign)).bind integerText?

/-! ## Chains -/

/-- The branches of a chain, each with its code and the lines of its body, and the body of the
`else`, if there is one. -/
structure Chain where
  branches : List (ℤ × List (List Char))
  otherwise : Option (List (List Char))
  deriving DecidableEq, Repr

namespace Chain

/-- The chain without branches. -/
def empty : Chain := ⟨[], none⟩

/-- One more branch in front of a chain. -/
def guard (code : ℤ) (body : List (List Char)) (chain : Chain) : Chain :=
  { chain with branches := (code, body) :: chain.branches }

/-- The statements that are executed for a value of the variable, those of the first branch with
this code. Lines without a character execute nothing. -/
def execute (chain : Chain) (value : ℤ) : List (List Char) :=
  (((chain.branches.lookup value).or chain.otherwise).getD []).filter isInked

theorem execute_guard (code : ℤ) (body : List (List Char)) (chain : Chain) (value : ℤ) :
    (chain.guard code body).execute value =
      if value = code then body.filter isInked else chain.execute value := by
  unfold execute guard
  rw [List.lookup_cons]
  by_cases h : value = code
  · simp [h]
  · rw [beq_eq_false_iff_ne.2 h, if_neg h]

end Chain

/-- The lines up to the next header and the chain behind them, up to its closing line. After an
`else` there is no further header, and nothing stands behind the closing line. -/
def readBranches (name : List Char) : List (List Char) → Option (List (List Char) × Chain)
  | [] => none
  | line :: lines =>
    match lineKind line with
    | .statement => (readBranches name lines).map fun p => (line :: p.1, p.2)
    | .closing => if lines = [] then some ([], .empty) else none
    | .next condition => do
      let code ← caseCode? name condition
      let (body, chain) ← readBranches name lines
      some ([], chain.guard code body)
    | .otherwise => do
      let (body, chain) ← readBranches name lines
      if chain = .empty then some ([], ⟨[], some body⟩) else none
    | .opening _ => none

/-- The chain that lines are. -/
def readChain (name : List Char) : List (List Char) → Option Chain
  | [] => none
  | line :: lines =>
    match lineKind line with
    | .opening condition => do
      let code ← caseCode? name condition
      let (body, chain) ← readBranches name lines
      some (chain.guard code body)
    | _ => none

/-! ## Reading line by line -/

section Reading

variable {name : List Char} {line : List Char} {lines : List (List Char)}

theorem readBranches_append {body : List (List Char)} (h : ∀ l ∈ body, lineKind l = .statement) :
    readBranches name (body ++ lines) =
      (readBranches name lines).map fun p => (body ++ p.1, p.2) := by
  induction body with
  | nil => simp
  | cons l body ih =>
    rw [List.forall_mem_cons] at h
    rw [List.cons_append, readBranches, h.1]
    simp only [ih h.2, Option.map_map]
    rfl

theorem readBranches_closing (h : lineKind line = .closing) :
    readBranches name [line] = some ([], .empty) := by
  rw [readBranches, h]
  exact if_pos rfl

theorem readBranches_next {condition : List Char} {code : ℤ} {body : List (List Char)}
    {chain : Chain} (h : lineKind line = .next condition)
    (hcode : caseCode? name condition = some code)
    (hlines : readBranches name lines = some (body, chain)) :
    readBranches name (line :: lines) = some ([], chain.guard code body) := by
  rw [readBranches, h]
  simp [hcode, hlines]

theorem readBranches_otherwise {body : List (List Char)} (h : lineKind line = .otherwise)
    (hlines : readBranches name lines = some (body, .empty)) :
    readBranches name (line :: lines) = some ([], ⟨[], some body⟩) := by
  rw [readBranches, h]
  simp [hlines]

theorem readChain_opening {condition : List Char} {code : ℤ} {body : List (List Char)}
    {chain : Chain} (h : lineKind line = .opening condition)
    (hcode : caseCode? name condition = some code)
    (hlines : readBranches name lines = some (body, chain)) :
    readChain name (line :: lines) = some (chain.guard code body) := by
  rw [readChain, h]
  simp [hcode, hlines]

end Reading

/-! ## Headers -/

theorem bare_append (as bs : List Char) : bare (as ++ bs) = bare as ++ bare bs := by
  simp [bare]

theorem bare_eq_self {cs : List Char} (h : ∀ c ∈ cs, Text.isBlank c = false ∧ c.toLower = c) :
    bare cs = cs := by
  have hfilter : cs.filter (!Text.isBlank ·) = cs :=
    List.filter_eq_self.2 fun c hc => by rw [(h c hc).1]; rfl
  rw [bare, hfilter]
  exact (List.map_congr_left fun c hc => (h c hc).2).trans (List.map_id cs)

/-- Digits and a sign count as they are. -/
theorem bare_intText (k : ℤ) : bare (toString k).toList = (toString k).toList := by
  have hdigit : ∀ n : ℕ, ∀ c ∈ Nat.toDigits 10 n, Text.isBlank c = false ∧ c.toLower = c := by
    intro n c hc
    have hrange := Text.toNat_of_isDigit (Nat.isDigit_of_mem_toDigits (by decide) (by decide) hc)
    constructor
    · simp [Text.isBlank, Text.blankRanges]
      omega
    · refine dif_neg fun hupper => ?_
      have hletter : 65 ≤ c.toNat := by
        rw [ge_iff_le, UInt32.le_iff_toNat_le] at hupper
        exact hupper.1
      omega
  refine bare_eq_self fun c hc => ?_
  rw [toList_intText] at hc
  split at hc
  · rcases List.mem_cons.1 hc with rfl | hc
    · decide
    · exact hdigit _ c hc
  · exact hdigit _ c hc

theorem integerText?_intText (k : ℤ) : integerText? (toString k).toList = some k := by
  rw [toList_intText]
  split
  · rw [integerText?, natural?_toDigits, Option.map_some]
    congr 1
    omega
  · unfold integerText?
    split
    · next digits heq =>
      have hminus : ('-' : Char).isDigit = true :=
        Nat.isDigit_of_mem_toDigits (by decide) (by decide) (heq ▸ List.mem_cons_self)
      exact absurd hminus (by decide)
    · rw [natural?_toDigits, Option.map_some]
      congr 1
      omega

theorem caseCode?_intText (name : List Char) (k : ℤ) :
    caseCode? name (name ++ equalsSign ++ (toString k).toList) = some k := by
  rw [caseCode?, List.dropPrefix?_append_of_beq _ BEq.rfl, Option.bind_some, integerText?_intText]

theorem between?_eq (before after cs : List Char) :
    between? before after (before ++ cs ++ after) = some cs := by
  rw [between?, List.append_assoc, List.dropPrefix?_append_of_beq _ BEq.rfl, Option.bind_some]
  exact List.dropSuffix?_eq_some_iff.2 ⟨after, rfl, BEq.rfl⟩

theorem lineKind_opening {line condition : List Char}
    (h : bare line = ifWord ++ condition ++ thenWord) : lineKind line = .opening condition := by
  have helse : ifWord ++ condition ++ thenWord ≠ elseWord := by
    simp [ifWord, elseWord]
  have hend : ifWord ++ condition ++ thenWord ≠ endWord := by
    simp [ifWord, endWord]
  rw [lineKind, h, if_neg helse, if_neg hend, between?_eq]

theorem lineKind_next {line condition : List Char}
    (h : bare line = elseWord ++ ifWord ++ condition ++ thenWord) :
    lineKind line = .next condition := by
  have helse : elseWord ++ ifWord ++ condition ++ thenWord ≠ elseWord := by
    simp [elseWord, ifWord]
  have hend : elseWord ++ ifWord ++ condition ++ thenWord ≠ endWord := by
    simp [elseWord, endWord]
  have hopening : between? ifWord thenWord (elseWord ++ ifWord ++ condition ++ thenWord) = none :=
    rfl
  rw [lineKind, h, if_neg helse, if_neg hend, hopening, between?_eq]

end GaussianIntegrals.Code
