/-
  The chain of branches dispatches: its text read as `if`, `else if`, `else` and `end if` over the
  switch variable executes, for every value of it, the statements of the branch with this code, of
  the last one of several where no branch has it, and none where the only branch does not.

  The header of a branch depends on its position. From the second branch on the text is read by
  `readBranches_branchTexts`, by induction over the branches behind; the first branch is put in
  front of it.

  A condition has to name its code, so the codes of the branches with conditions must not be too
  long to be written (`Branch.conditional`). The last of several branches has no condition and may
  have any code.
-/
import GaussianIntegrals.Layout
import GaussianIntegrals.Proofs.Code.Chain
import GaussianIntegrals.Proofs.StandardHeaders
import GaussianIntegrals.Proofs.TemplateLines

namespace GaussianIntegrals

open Code Dialect Layout

/-! ## The lines of a body -/

/-- The lines of a text. -/
def textLines (s : String) : List (List Char) := Text.splitAt '\n' s.toList

namespace Branch

/-- What is executed: the lines of the raw entries and then those of the re-based lines. -/
def statements (b : Branch) : List (List Char) :=
  (b.raw ++ b.rebased).flatMap fun entry => (textLines entry).filter isInked

/-- No line of the body is read as a header. -/
def HasNoHeader (b : Branch) : Prop :=
  ∀ entry ∈ b.raw ++ b.rebased, ∀ line ∈ textLines entry, lineKind line = .statement

/-- The lines from the header of a branch to the next one. -/
def bodyLines (b : Branch) (isLast : Bool) : List (List Char) :=
  [] :: (b.raw.flatMap (fun entry => textLines entry ++ [[]]) ++ b.rebased.flatMap textLines ++
    if isLast then [] else [[]])

theorem lineKind_nil : lineKind [] = .statement := rfl

theorem lineKind_bodyLines (b : Branch) (h : b.HasNoHeader) (isLast : Bool) :
    ∀ line ∈ b.bodyLines isLast, lineKind line = .statement := by
  unfold HasNoHeader at h
  rw [List.forall_mem_append] at h
  simp only [bodyLines, List.forall_mem_cons, List.forall_mem_append, List.mem_flatMap,
    forall_exists_index, and_imp]
  refine ⟨lineKind_nil, ⟨fun line entry hentry hline => ?_, fun line entry hentry hline =>
    h.2 entry hentry line hline⟩, ?_⟩
  · rcases List.mem_append.1 hline with hline | hline
    · exact h.1 entry hentry line hline
    · rw [List.mem_singleton.1 hline]
      exact lineKind_nil
  · cases isLast
    · simpa using lineKind_nil
    · simp

theorem filter_bodyLines (b : Branch) (isLast : Bool) :
    (b.bodyLines isLast).filter isInked = b.statements := by
  have hblank : isInked [] = false := rfl
  cases isLast <;>
    simp [bodyLines, statements, List.filter_flatMap, List.filter_append, hblank]

end Branch

/-- Entries, each with a separator behind it. -/
theorem splitAt_flatMap {separator : List Char} {blank : List (List Char)}
    (h : ∀ as rest, Text.splitAt '\n' (as ++ (separator ++ rest)) =
      Text.splitAt '\n' as ++ (blank ++ Text.splitAt '\n' rest))
    (entries : List String) (rest : List Char) :
    Text.splitAt '\n' ((entries.flatMap fun entry => entry.toList ++ separator) ++ rest) =
      entries.flatMap (fun entry => textLines entry ++ blank) ++ Text.splitAt '\n' rest := by
  induction entries with
  | nil => rfl
  | cons entry entries ih =>
    rw [List.flatMap_cons, List.flatMap_cons, List.append_assoc, List.append_assoc, h, ih,
      textLines]
    simp only [List.append_assoc]

theorem splitAt_blank (as rest : List Char) :
    Text.splitAt '\n' (as ++ (['\n', '\n'] ++ rest)) =
      Text.splitAt '\n' as ++ ([[]] ++ Text.splitAt '\n' rest) :=
  (Text.splitAt_append_cons '\n' as ('\n' :: rest)).trans
    (congrArg _ (Text.splitAt_append_cons '\n' [] rest))

theorem toList_bodyText (b : Branch) : (bodyText b).toList =
    (b.raw.flatMap fun entry => entry.toList ++ ['\n', '\n']) ++
      b.rebased.flatMap fun entry => entry.toList ++ ['\n'] := by
  simp [bodyText, List.flatMap_map]

/-- The lines of a branch and of what stands behind it. -/
theorem splitAt_branch {header : List Char} (hheader : OneLine header) (b : Branch)
    (isLast : Bool) (after : String) (rest : List Char) :
    Text.splitAt '\n' ((String.ofList header ++ "\n\n" ++ bodyText b ++
      (if isLast then "" else "\n") ++ after).toList ++ rest) =
        header :: (b.bodyLines isLast ++ Text.splitAt '\n' (after.toList ++ rest)) := by
  have hend : ∀ cs, Text.splitAt '\n' ((if isLast then "" else "\n").toList ++ cs) =
      (if isLast then [] else [[]]) ++ Text.splitAt '\n' cs := by
    intro cs
    cases isLast
    · exact Text.splitAt_append_cons '\n' [] cs
    · rfl
  have hraw := splitAt_flatMap splitAt_blank b.raw
  have hrebased : ∀ cs, Text.splitAt '\n'
      ((b.rebased.flatMap fun entry => entry.toList ++ ['\n']) ++ cs) =
        b.rebased.flatMap (fun entry => textLines entry ++ []) ++ Text.splitAt '\n' cs :=
    splitAt_flatMap (Text.splitAt_append_cons '\n') b.rebased
  have hbody : (String.ofList header ++ "\n\n" ++ bodyText b ++ (if isLast then "" else "\n") ++
      after).toList ++ rest = header ++ (['\n', '\n'] ++
        ((b.raw.flatMap fun entry => entry.toList ++ ['\n', '\n']) ++
          ((b.rebased.flatMap fun entry => entry.toList ++ ['\n']) ++
            ((if isLast then "" else "\n").toList ++ (after.toList ++ rest))))) := by
    simp [toList_bodyText]
  rw [hbody, splitAt_blank, hraw, hrebased, hend, splitAt_line hheader]
  simp [Branch.bodyLines]

/-! ## Headers -/

/-- The switch variable. -/
def switchName : List Char := ['l', '1', 'l', '2', 's', 'w', 'i', 't', 'c', 'h']

/-- The condition for a code. -/
def conditionChars (code : ℤ) : List Char := switchName ++ equalsSign ++ (toString code).toList

/-- A header with a condition. -/
def conditionHeader (before : List Char) (code : ℤ) : List Char :=
  before ++ conditionChars code ++ [')', ' ', 't', 'h', 'e', 'n']

theorem oneLine_conditionHeader {before : List Char} (h : OneLine before) (code : ℤ) :
    OneLine (conditionHeader before code) := by
  have hswitch : OneLine (switchName ++ equalsSign) := by decide
  rw [conditionHeader, oneLine_append, oneLine_append, conditionChars, oneLine_append]
  exact ⟨⟨h, hswitch, Template.oneLine_intText code⟩, by decide⟩

theorem bare_conditionHeader (before : List Char) (code : ℤ) :
    bare (conditionHeader before code) = bare before ++ conditionChars code ++ thenWord := by
  have hswitch : bare (switchName ++ equalsSign) = switchName ++ equalsSign := by decide
  have hend : bare [')', ' ', 't', 'h', 'e', 'n'] = thenWord := by decide
  rw [conditionHeader, conditionChars, bare_append, bare_append, bare_append, bare_intText, hswitch,
    hend]

theorem conditionText_toString (opening : String) (code : ℤ) :
    standard.conditionText opening (toString code) =
      String.ofList (conditionHeader opening.toList code) := by
  have hswitch : standard.switchVariable.toList = switchName := by decide
  have hmid : ".eq.".toList = equalsSign := by decide
  have hend : ") then".toList = [')', ' ', 't', 'h', 'e', 'n'] := by decide
  simp only [conditionText, conditionHeader, conditionChars, ← String.toList_inj,
    String.toList_append, String.toList_ofList, hswitch, hmid, hend, List.append_assoc]

theorem branch_first (code : ℤ) (count : ℕ) :
    standard.branch code 0 count = ((Text.writeInt code).mapError .integer).map
      (standard.conditionText "if (") := by
  have h : ¬ ((0 : ℤ) = count - 1 ∧ (1 : ℤ) < count) := by omega
  rw [branch_of_standard hasStandardHeaders_standard, if_neg h, if_pos rfl]

theorem branch_next (code : ℤ) {position count : ℕ} (h₀ : 0 < position)
    (h₁ : position + 1 < count) :
    standard.branch code position count = ((Text.writeInt code).mapError .integer).map
      (standard.conditionText "else if (") := by
  have hlast : ¬ ((position : ℤ) = count - 1 ∧ (1 : ℤ) < count) := by omega
  rw [branch_of_standard hasStandardHeaders_standard, if_neg hlast, if_neg (by omega)]

section Condition

variable {code : ℤ} (opening : String)

theorem condition_of_writable (h : Text.Writable code) :
    ((Text.writeInt code).mapError Template.TemplateError.integer).map
      (standard.conditionText opening) =
        .ok (String.ofList (conditionHeader opening.toList code)) := by
  rw [(Text.writes_writeInt code).eq_ok h, ← conditionText_toString]
  rfl

theorem condition_of_not_writable (h : ¬ Text.Writable code) :
    ((Text.writeInt code).mapError Template.TemplateError.integer).map
      (standard.conditionText opening) = .error (.integer .tooLongToWrite) := by
  rw [(Text.writes_writeInt code).eq_error h]
  rfl

end Condition

theorem branch_last (code : ℤ) {position count : ℕ} (h₀ : 0 < position)
    (h₁ : position + 1 = count) :
    standard.branch code position count = .ok (String.ofList ['e', 'l', 's', 'e']) :=
  if_pos ⟨by omega, by omega⟩

/-! ## Chains -/

/-- The chain of the branches behind the first one. -/
def laterChain : List Branch → Chain
  | [] => .empty
  | [b] => ⟨[], some (b.bodyLines true)⟩
  | b :: b' :: bs => (laterChain (b' :: bs)).guard b.code (b.bodyLines false)

theorem lineKind_conditionHeader_first (code : ℤ) :
    lineKind (conditionHeader "if (".toList code) = .opening (conditionChars code) :=
  lineKind_opening (bare_conditionHeader _ code)

theorem lineKind_conditionHeader_next (code : ℤ) :
    lineKind (conditionHeader "else if (".toList code) = .next (conditionChars code) :=
  lineKind_next (bare_conditionHeader _ code)

/-- The branches whose headers have conditions: the first one, and of those behind it all but the
last. -/
def Branch.conditional : List Branch → List Branch
  | [] => []
  | b :: bs => b :: bs.dropLast

/-- A branch in front of the text of others. -/
theorem branchTexts_cons {count position : ℕ} {b : Branch} {bs : List Branch}
    {header after : String} (hheader : standard.branch b.code position count = .ok header)
    (hafter : standard.branchTexts count (position + 1) bs = .ok after) :
    standard.branchTexts count position (b :: bs) =
      .ok (header ++ "\n\n" ++ bodyText b ++ (if bs.isEmpty then "" else "\n") ++ after) := by
  rw [branchTexts, hheader, hafter]
  rfl

theorem readBranches_bodyLines {b : Branch} (h : b.HasNoHeader) (isLast : Bool)
    {lines : List (List Char)} {chain : Chain}
    (hlines : readBranches switchName lines = some ([], chain)) :
    readBranches switchName (b.bodyLines isLast ++ lines) = some (b.bodyLines isLast, chain) := by
  rw [readBranches_append (b.lineKind_bodyLines h isLast), hlines, Option.map_some,
    List.append_nil]

theorem readBranches_branchTexts {position : ℕ} (hposition : 0 < position) {bs : List Branch}
    (hbs : ∀ b ∈ bs, b.HasNoHeader) (hcodes : ∀ b ∈ bs.dropLast, Text.Writable b.code) :
    ∃ text, standard.branchTexts (position + bs.length) position bs = .ok text ∧
      readBranches switchName (Text.splitAt '\n' (text.toList ++ standard.endBranch.toList)) =
        some ([], laterChain bs) := by
  induction bs generalizing position with
  | nil => exact ⟨"", rfl, readBranches_closing (by decide)⟩
  | cons b bs ih =>
    rw [List.forall_mem_cons] at hbs
    have hcodes' : ∀ b' ∈ bs.dropLast, Text.Writable b'.code := by
      cases bs with
      | nil => simp
      | cons b' bs => exact fun a ha => hcodes a (List.mem_cons_of_mem b ha)
    obtain ⟨after, hafter, hread⟩ := ih (Nat.succ_pos position) hbs.2 hcodes'
    have hbody := readBranches_bodyLines hbs.1 bs.isEmpty hread
    have hcount : position + (b :: bs).length = position + 1 + bs.length := by
      rw [List.length_cons]
      omega
    rw [hcount]
    cases bs with
    | nil =>
      refine ⟨_, branchTexts_cons (branch_last b.code hposition rfl) hafter, ?_⟩
      rw [splitAt_branch (by decide)]
      exact readBranches_otherwise (by decide) hbody
    | cons b' bs =>
      have hlater : position + 1 < position + 1 + (b' :: bs).length := by
        rw [List.length_cons]
        omega
      have hheader := (branch_next b.code hposition hlater).trans
        (condition_of_writable _ (hcodes b List.mem_cons_self))
      refine ⟨_, branchTexts_cons hheader hafter, ?_⟩
      rw [splitAt_branch (oneLine_conditionHeader (by decide) _)]
      exact readBranches_next (lineKind_conditionHeader_next b.code) (caseCode?_intText _ _) hbody

/-- The text of a chain is read as its first branch in front of the chain of the others. -/
theorem readChain_chainText {b : Branch} {bs : List Branch} (h : ∀ b' ∈ b :: bs, b'.HasNoHeader)
    (hcodes : ∀ b' ∈ Branch.conditional (b :: bs), Text.Writable b'.code) :
    ∃ text, standard.chainText (b :: bs) = .ok text ∧ readChain switchName (textLines text) =
      some ((laterChain bs).guard b.code (b.bodyLines bs.isEmpty)) := by
  rw [List.forall_mem_cons] at h
  rw [Branch.conditional, List.forall_mem_cons] at hcodes
  obtain ⟨after, hafter, hread⟩ := readBranches_branchTexts Nat.one_pos h.2 hcodes.2
  have hcount : (b :: bs).length = 1 + bs.length := by
    rw [List.length_cons]
    omega
  have hheader := (branch_first b.code (1 + bs.length)).trans (condition_of_writable _ hcodes.1)
  have htext := branchTexts_cons hheader hafter
  refine ⟨_, by rw [chainText, hcount, htext]; rfl, ?_⟩
  rw [textLines, String.toList_append, splitAt_branch (oneLine_conditionHeader (by decide) _)]
  exact readChain_opening (lineKind_conditionHeader_first b.code) (caseCode?_intText _ _)
    (readBranches_bodyLines h.1 bs.isEmpty hread)

/-! ## Codes that are too long -/

theorem branchTexts_of_header_error {count position : ℕ} {b : Branch} {bs : List Branch}
    {e : Template.TemplateError} (h : standard.branch b.code position count = .error e) :
    standard.branchTexts count position (b :: bs) = .error e := by
  rw [branchTexts, h]
  rfl

theorem branchTexts_of_later_error {count position : ℕ} {b : Branch} {bs : List Branch}
    {header : String} {e : Template.TemplateError}
    (hheader : standard.branch b.code position count = .ok header)
    (h : standard.branchTexts count (position + 1) bs = .error e) :
    standard.branchTexts count position (b :: bs) = .error e := by
  rw [branchTexts, hheader, h]
  rfl

theorem branchTexts_eq_error {position : ℕ} (hposition : 0 < position) {bs : List Branch}
    (hlong : ∃ b ∈ bs.dropLast, ¬ Text.Writable b.code) :
    standard.branchTexts (position + bs.length) position bs =
      .error (.integer .tooLongToWrite) := by
  induction bs generalizing position with
  | nil => simp at hlong
  | cons b bs ih =>
    cases bs with
    | nil => simp at hlong
    | cons b' bs =>
      have hlater : position + 1 < position + (b :: b' :: bs).length := by
        simp only [List.length_cons]
        omega
      have hheader := branch_next b.code hposition hlater
      by_cases hcode : Text.Writable b.code
      · have hrest : ∃ b ∈ (b' :: bs).dropLast, ¬ Text.Writable b.code := by
          obtain ⟨a, ha, hlong⟩ := hlong
          rcases List.mem_cons.1 ha with rfl | ha
          · exact absurd hcode hlong
          · exact ⟨a, ha, hlong⟩
        have hafter := ih (Nat.succ_pos position) hrest
        rw [Nat.succ_add_eq_add_succ] at hafter
        exact branchTexts_of_later_error (hheader.trans (condition_of_writable _ hcode)) hafter
      · exact branchTexts_of_header_error (hheader.trans (condition_of_not_writable _ hcode))

/-- Without the text of one of its codes a chain has no text. -/
theorem chainText_eq_error {bs : List Branch}
    (hlong : ¬ ∀ b ∈ Branch.conditional bs, Text.Writable b.code) :
    standard.chainText bs = .error (.integer .tooLongToWrite) := by
  cases bs with
  | nil => simp [Branch.conditional] at hlong
  | cons b bs =>
    have hcount : (b :: bs).length = 1 + bs.length := by
      rw [List.length_cons]
      omega
    have htexts : standard.branchTexts (1 + bs.length) 0 (b :: bs) =
        .error (.integer .tooLongToWrite) := by
      have hheader := branch_first b.code (1 + bs.length)
      by_cases hcode : Text.Writable b.code
      · have hrest : ∃ b ∈ bs.dropLast, ¬ Text.Writable b.code := by
          simpa [Branch.conditional, hcode] using hlong
        exact branchTexts_of_later_error (hheader.trans (condition_of_writable _ hcode))
          (branchTexts_eq_error Nat.one_pos hrest)
      · exact branchTexts_of_header_error (hheader.trans (condition_of_not_writable _ hcode))
    rw [chainText, hcount, htexts]
    rfl

/-! ## Execution -/

/-- With distinct codes a branch in front does not hide another one. -/
theorem execute_guard_of_mem {b : Branch} {bs : List Branch} {chain : Chain}
    (hcode : b.code ∉ bs.map Branch.code)
    (hchain : ∀ a ∈ bs, chain.execute a.code = a.statements) (isLast : Bool) :
    ∀ a ∈ b :: bs, (chain.guard b.code (b.bodyLines isLast)).execute a.code = a.statements := by
  intro a ha
  rw [Chain.execute_guard]
  rcases List.mem_cons.1 ha with rfl | ha
  · rw [if_pos rfl, a.filter_bodyLines]
  · have hne : a.code ≠ b.code := fun heq => hcode (heq ▸ List.mem_map_of_mem ha)
    rw [if_neg hne, hchain a ha]

theorem execute_laterChain {bs : List Branch} (h : (bs.map Branch.code).Nodup) :
    (∀ b ∈ bs, (laterChain bs).execute b.code = b.statements) ∧
      ∀ c ∉ bs.map Branch.code, (laterChain bs).execute c =
        (bs.getLast?.map Branch.statements).getD [] := by
  fun_induction laterChain bs with
  | case1 => exact ⟨fun b hb => (by cases hb), fun _ _ => rfl⟩
  | case2 b =>
    have hexecute : ∀ c, Chain.execute ⟨[], some (b.bodyLines true)⟩ c = b.statements :=
      fun c => b.filter_bodyLines true
    refine ⟨fun b' hb' => ?_, fun c _ => hexecute c⟩
    rw [List.mem_singleton.1 hb']
    exact hexecute _
  | case3 b b' bs ih =>
    rw [List.map_cons, List.nodup_cons] at h
    obtain ⟨hmem, hlast⟩ := ih h.2
    refine ⟨execute_guard_of_mem h.1 hmem false, fun c hc => ?_⟩
    rw [List.map_cons, List.mem_cons, not_or] at hc
    rw [Chain.execute_guard, if_neg hc.1, hlast c hc.2]
    rfl

/-- **The chain of branches dispatches every value of the switch.** Branches with different codes
and without headers in their bodies have a text that is read as a chain, as long as the codes in its
conditions are not too long to be written; otherwise they have none. For the code of a branch the
chain executes the statements of this branch; for any other value those of the last branch, or none
if there is only one. -/
theorem chain_dispatches {bs : List Branch} (hne : bs ≠ []) (hcodes : (bs.map Branch.code).Nodup)
    (hbodies : ∀ b ∈ bs, b.HasNoHeader) :
    ((∀ b ∈ Branch.conditional bs, Text.Writable b.code) →
      ∃ text chain, standard.chainText bs = .ok text ∧
        readChain switchName (textLines text) = some chain ∧
        (∀ b ∈ bs, chain.execute b.code = b.statements) ∧
        ∀ c ∉ bs.map Branch.code,
          (1 < bs.length → chain.execute c = (bs.getLast hne).statements) ∧
          (bs.length = 1 → chain.execute c = [])) ∧
    ((¬ ∀ b ∈ Branch.conditional bs, Text.Writable b.code) →
      standard.chainText bs = .error (.integer .tooLongToWrite)) := by
  refine ⟨fun hwritable => ?_, chainText_eq_error⟩
  obtain ⟨b, bs, rfl⟩ := List.exists_cons_of_ne_nil hne
  obtain ⟨text, htext, hread⟩ := readChain_chainText hbodies hwritable
  rw [List.map_cons, List.nodup_cons] at hcodes
  obtain ⟨hmem, hlast⟩ := execute_laterChain hcodes.2
  refine ⟨text, _, htext, hread, execute_guard_of_mem hcodes.1 hmem _, fun c hc => ?_⟩
  rw [List.map_cons, List.mem_cons, not_or] at hc
  rw [Chain.execute_guard, if_neg hc.1, hlast c hc.2]
  cases bs with
  | nil => exact ⟨fun h => absurd h (by simp), fun _ => rfl⟩
  | cons b' bs => exact ⟨fun _ => rfl, fun h => absurd h (by simp)⟩

/-- Three branches with a raw entry on two lines. -/
def threeBranches : List Branch :=
  [⟨34, ["a = 1&\n&+2"], ["g = a"]⟩, ⟨-17, ["b = 2", "c = 3"], []⟩, ⟨136, [], ["g = d"]⟩]

theorem chain_dispatches_three : threeBranches ≠ [] ∧ (threeBranches.map Branch.code).Nodup ∧
    (∀ b ∈ threeBranches, b.HasNoHeader) ∧
    (∀ b ∈ Branch.conditional threeBranches, Text.Writable b.code) ∧
    ∃ text chain, standard.chainText threeBranches = .ok text ∧
      readChain switchName (textLines text) = some chain ∧
      chain.execute 34 = ["a = 1&".toList, "&+2".toList, "g = a".toList] ∧
      chain.execute (-17) = ["b = 2".toList, "c = 3".toList] ∧
      chain.execute 0 = ["g = d".toList] := by
  have hcodes : (threeBranches.map Branch.code).Nodup := by decide
  have hbodies : ∀ b ∈ threeBranches, b.HasNoHeader := by
    unfold Branch.HasNoHeader
    decide
  have hwritable : ∀ b ∈ Branch.conditional threeBranches, Text.Writable b.code := by
    have hsmall : ∀ b ∈ threeBranches, b.code.natAbs ≤ 10 ^ 18 := by decide
    intro b hb
    refine Text.writable_of_natAbs_le (hsmall b ?_)
    revert b
    decide
  obtain ⟨text, chain, htext, hread, hmem, hother⟩ :=
    (chain_dispatches (List.cons_ne_nil _ _) hcodes hbodies).1 hwritable
  refine ⟨List.cons_ne_nil _ _, hcodes, hbodies, hwritable, text, chain, htext, hread, ?_, ?_, ?_⟩
  · exact (hmem _ List.mem_cons_self).trans (by decide)
  · exact (hmem _ (List.mem_cons_of_mem _ List.mem_cons_self)).trans (by decide)
  · exact ((hother 0 (by decide)).1 (by decide)).trans (by decide)

/-- A branch whose code has one digit too many. -/
def longCode : Branch := ⟨10 ^ Text.digitLimit, [], []⟩

theorem longCode_without_text : [longCode] ≠ [] ∧ ([longCode].map Branch.code).Nodup ∧
    (∀ b ∈ [longCode], b.HasNoHeader) ∧ ¬ ∃ text, standard.chainText [longCode] = .ok text := by
  refine ⟨List.cons_ne_nil _ _, by simp, ?_, ?_⟩
  · intro b hb entry hentry
    rw [List.mem_singleton.1 hb] at hentry
    exact absurd hentry List.not_mem_nil
  · rintro ⟨text, htext⟩
    have herror : standard.chainText [longCode] = .error (.integer .tooLongToWrite) :=
      chainText_eq_error fun h => Text.not_writable_pow (h longCode List.mem_cons_self)
    cases herror.symm.trans htext

end GaussianIntegrals
