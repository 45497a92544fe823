/-
  The artifact of a family with its lines wrapped, and the same artifact without line breaks.
  Joining the lines of the first gives the second (`unwrap_artifactText`): the new lines
  between headers, assignments and branches are none of the breaks, since the marker follows
  none of them. After an entry or a header comes an empty line; after a re-based line comes
  another one, an empty line or the closing line, and the marker begins neither a re-based line
  nor the closing line.

  What counts for a header is the text that is filled in. It is on one line where the templates and
  the switch variable are and the templates ask for no attribute (`OnLine.headersOnLine`); the
  templates alone do not decide it (`unwrap_artifactText_broken_variable`).
-/
import GaussianIntegrals.Generation.Case
import GaussianIntegrals.Proofs.StandardHeaders
import GaussianIntegrals.Proofs.TemplateLines

namespace GaussianIntegrals

open Layout

namespace Dialect

/-! ## Texts of a dialect -/

/-- The marker and the texts around the branches are on one line each. -/
structure OnLine (d : Dialect) : Prop where
  continuation : OneLine d.continuation.toList
  switchVariable : OneLine d.switchVariable.toList
  firstBranch : OneLine d.firstBranch.toList
  nextBranch : OneLine d.nextBranch.toList
  defaultBranch : OneLine d.defaultBranch.toList
  endBranch : OneLine d.endBranch.toList

/-- The headers of some cases are on one line each, as far as they can be filled in. -/
def HeadersOnLine (d : Dialect) (ts : List CaseText) : Prop :=
  ∀ t ∈ ts, ∀ (position : ℤ) (header : String),
    d.branch t.pair.switchCode position ts.length = .ok header → OneLine header.toList

/-- No switch code is the number of the new line. -/
theorem switchCode_ne (c : ShellPair) : ((c.switchCode : ℕ) : ℤ) ≠ 10 := by
  obtain ⟨a, b⟩ := c
  cases a <;> cases b <;> decide

theorem OnLine.branch {d : Dialect} (hd : d.OnLine) (hr : d.reflection.OnLine)
    {code position count : ℤ} (hcode : code ≠ 10) {header : String}
    (h : d.branch code position count = .ok header) : OneLine header.toList := by
  unfold Dialect.branch at h
  split at h
  · injection h with h
    exact h ▸ hd.defaultBranch
  · refine Template.oneLine_expand hr ?_ ?_ h
    · intro p hp
      rcases List.mem_pair.1 hp with rfl | rfl
      · exact hd.switchVariable
      · exact hcode
    · split
      · exact hd.firstBranch
      · exact hd.nextBranch

/-- Templates that are filled in all the same without attributes. -/
theorem OnLine.headersOnLine {d : Dialect} (hd : d.OnLine) {ts : List CaseText}
    (hplain : ∀ t ∈ ts, ∀ position : ℤ,
      d.withoutAttributes.branch t.pair.switchCode position ts.length =
        d.branch t.pair.switchCode position ts.length) : d.HeadersOnLine ts := by
  intro t ht position header h
  have hbare : d.withoutAttributes.OnLine :=
    ⟨hd.continuation, hd.switchVariable, hd.firstBranch, hd.nextBranch, hd.defaultBranch,
      hd.endBranch⟩
  rw [← hplain t ht position] at h
  exact hbare.branch Template.Reflection.onLine_bare (switchCode_ne t.pair) h

theorem head?_wrap (d : Dialect) (text : String) :
    (d.wrap text).toList.head? = text.toList.head? := by
  rw [wrap, String.toList_ofList]
  cases text.toList with
  | nil => unfold breakEvery; rfl
  | cons c cs =>
    cases d.width - 1 with
    | zero => rw [breakEvery, List.head?_cons, List.head?_cons]
    | succ room => rw [breakEvery, List.head?_cons, List.head?_cons]

/-! ## Lines of a branch -/

section

variable {d : Dialect} {cs us : List Char}

/-- A line of the artifact and an empty line. -/
theorem laid_blank (hd : OneLine d.continuation.toList) {p : List Char} (hp : OneLine p)
    (h : Laid d.continuation.toList cs us) :
    Laid d.continuation.toList (p ++ '\n' :: '\n' :: cs) (p ++ '\n' :: '\n' :: us) :=
  .newline hp hd.head?_ne (.blank h)

theorem laid_entries (hd : OneLine d.continuation.toList) {entries : List String}
    (hentries : ∀ s ∈ entries, OneLine s.toList) (h : Laid d.continuation.toList cs us) :
    Laid d.continuation.toList
      ((String.join ((entries.map d.wrap).map (· ++ "\n\n"))).toList ++ cs)
      ((String.join (entries.map (· ++ "\n\n"))).toList ++ us) := by
  induction entries with
  | nil => exact h
  | cons s entries ih =>
    rw [List.forall_mem_cons] at hentries
    have hrest := ih hentries.2
    have hline := d.laid_wrap hentries.1 fun p hp => laid_blank hd hp hrest
    simpa using hline

/-- Re-based lines, which begin with the name of the basis matrix, before a text that the
marker does not begin: it does not begin theirs either. -/
theorem laid_rebased {basis : String} (hne : basis ≠ "")
    (hbasis : basis.toList.head? ≠ d.continuation.toList.head?) {lines : List String}
    (hlines : ∀ s ∈ lines, OneLine s.toList ∧ basis.toList <+: s.toList)
    (h : Laid d.continuation.toList cs us) (hcs : cs.head? ≠ d.continuation.toList.head?) :
    Laid d.continuation.toList
        ((String.join ((lines.map d.wrap).map (· ++ "\n"))).toList ++ cs)
        ((String.join (lines.map (· ++ "\n"))).toList ++ us) ∧
      ((String.join ((lines.map d.wrap).map (· ++ "\n"))).toList ++ cs).head? ≠
        d.continuation.toList.head? := by
  induction lines with
  | nil => exact ⟨h, hcs⟩
  | cons s lines ih =>
    rw [List.forall_mem_cons] at hlines
    obtain ⟨⟨hs, rest, hrest⟩, hlines⟩ := hlines
    obtain ⟨hlaid, hhead⟩ := ih hlines
    have hline := d.laid_wrap hs fun p hp => .newline hp hhead hlaid
    have hstart : (d.wrap s).toList.head? = basis.toList.head? := by
      rw [head?_wrap, ← hrest, List.head?_append_of_ne_nil]
      rwa [Ne, String.toList_eq_nil_iff]
    have hnonempty : (d.wrap s).toList ≠ [] := by
      intro hnil
      rw [hnil, List.head?_nil, eq_comm, List.head?_eq_none_iff, String.toList_eq_nil_iff] at hstart
      exact hne hstart
    refine ⟨by simpa using hline, ?_⟩
    rw [List.map_cons, List.map_cons, String.toList_join, List.flatMap_cons, String.toList_append,
      List.append_assoc, List.append_assoc, List.head?_append_of_ne_nil _ hnonempty, hstart]
    exact hbasis

end

end Dialect

/-! ## Artifacts -/

/-- The branch of a text, its lines as they are. -/
def CaseText.plainBranch (t : CaseText) : Branch where
  code := t.pair.switchCode
  raw := t.raw
  rebased := t.rebased

/-- The entries are on one line each, also the re-based lines, which begin with the name of the
basis matrix. -/
structure CaseText.OnLine (basis : String) (t : CaseText) : Prop where
  raw : ∀ s ∈ t.raw, OneLine s.toList
  rebased : ∀ s ∈ t.rebased, OneLine s.toList ∧ basis.toList <+: s.toList

namespace Dialect

section

variable {d : Dialect} {basis : String} (hmarker : OneLine d.continuation.toList)
  (hne : basis ≠ "") (hbasis : basis.toList.head? ≠ d.continuation.toList.head?)

include hmarker hne hbasis

/-- A branch and what stands behind it. -/
theorem laid_branch {t : CaseText} (ht : t.OnLine basis) {header : String}
    (hheader : OneLine header.toList) {after after' : String}
    (h : Laid d.continuation.toList after.toList after'.toList)
    (hafter : after.toList.head? ≠ d.continuation.toList.head?) :
    Laid d.continuation.toList (header ++ "\n\n" ++ bodyText (t.branch d) ++ after).toList
      (header ++ "\n\n" ++ bodyText t.plainBranch ++ after').toList := by
  have hlines := (laid_rebased hne hbasis ht.rebased h hafter).1
  have hbody := laid_blank hmarker hheader (laid_entries hmarker ht.raw hlines)
  simpa [bodyText, CaseText.branch, CaseText.plainBranch] using hbody

theorem alike_branchTexts (hendLine : OneLine d.endBranch.toList)
    (hend : d.endBranch.toList.head? ≠ d.continuation.toList.head?) {count : ℕ}
    {ts : List CaseText} (hts : ∀ t ∈ ts, t.OnLine basis)
    (hheaders : ∀ t ∈ ts, ∀ (position : ℤ) (header : String),
      d.branch t.pair.switchCode position count = .ok header → OneLine header.toList)
    (position : ℕ) :
    Alike (fun s s' : String => Laid d.continuation.toList (s ++ d.endBranch).toList
        (s' ++ d.endBranch).toList)
      (d.branchTexts count position (ts.map (CaseText.branch d)))
      (d.branchTexts count position (ts.map CaseText.plainBranch)) := by
  induction ts generalizing position with
  | nil => exact .ok (.line (by simpa using hendLine))
  | cons t ts ih =>
    rw [List.forall_mem_cons] at hts hheaders
    have hheader : Alike (fun s s' : String => s = s' ∧ OneLine s.toList)
        (d.branch (t.branch d).code position count)
        (d.branch t.plainBranch.code position count) :=
      Alike.of_forall fun header => hheaders.1 position header
    refine hheader.bind ?_
    rintro header _ ⟨rfl, hline⟩
    cases ts with
    | nil =>
      have hlast := laid_branch hmarker hne hbasis hts.1 hline (.line hendLine) hend
      refine .ok ?_
      simpa using hlast
    | cons t' ts =>
      refine (ih hts.2 hheaders.2 (position + 1)).bind fun after after' hafter => .ok ?_
      -- an empty line separates the branches
      have hrest : Laid d.continuation.toList ("\n" ++ (after ++ d.endBranch)).toList
          ("\n" ++ (after' ++ d.endBranch)).toList := by
        simpa using Laid.blank hafter
      have hbranch := laid_branch hmarker hne hbasis hts.1 hline hrest
        (by simpa using hmarker.head?_ne)
      simpa [String.append_assoc] using hbranch

/-- **Joining the lines of an artifact loses nothing**: where marker, headers and closing line are
on one line each, what comes out is the artifact of the same branches with their lines not wrapped.
No new line between headers, entries, re-based lines or branches goes, and where a header cannot be
written, both fail in the same way. -/
theorem unwrap_artifactText (hendLine : OneLine d.endBranch.toList)
    (hend : d.endBranch.toList.head? ≠ d.continuation.toList.head?) (ts : List CaseText)
    (hheaders : d.HeadersOnLine ts) (hts : ∀ t ∈ ts, t.OnLine basis) :
    (d.artifactText ts).map d.unwrap = d.chainText (ts.map CaseText.plainBranch) := by
  refine Alike.map_eq ?_
  unfold artifactText chainText
  rw [List.length_map, List.length_map]
  refine (alike_branchTexts hmarker hne hbasis hendLine hend hts hheaders 0).bind
    fun s s' h => .ok ?_
  exact d.unwrap_of_laid hmarker h

end

/-- Two branches under a header that is wider than a line; entries of one line and of two, which
hold the marker. -/
def narrowCases : List CaseText :=
  [⟨"nuclear", ⟨.s, .s⟩, ["wo(1,1) = ab"], ["g(1,1) = ", "g(1,1)"]⟩,
    ⟨"nuclear", ⟨.p, .s⟩, ["wo(1,1) = xy"], ["g(2,1) = aab"]⟩]

/-- The dialect breaks lines after two characters. -/
theorem unwrap_artifactText_narrow :
    OneLine narrow.continuation.toList ∧ "g" ≠ "" ∧
      "g".toList.head? ≠ narrow.continuation.toList.head? ∧ OneLine narrow.endBranch.toList ∧
      narrow.endBranch.toList.head? ≠ narrow.continuation.toList.head? ∧
      narrow.HeadersOnLine narrowCases ∧ (∀ t ∈ narrowCases, t.OnLine "g") ∧
      (narrow.artifactText narrowCases).map narrow.unwrap =
        narrow.chainText (narrowCases.map CaseText.plainBranch) := by
  have hd : narrow.OnLine := by constructor <;> decide
  have hheaders : narrow.HeadersOnLine narrowCases :=
    hd.headersOnLine fun t _ position =>
      branch_withoutAttributes_of_standard ⟨rfl, rfl⟩ t.pair.switchCode position _
  have hcases : ∀ t ∈ narrowCases, t.OnLine "g" := by
    simp only [narrowCases, List.forall_mem_cons]
    refine ⟨⟨?_, ?_⟩, ⟨?_, ?_⟩, List.forall_mem_nil _⟩ <;> decide
  exact ⟨hd.continuation, by decide, by decide, hd.endBranch, by decide, hheaders, hcases,
    unwrap_artifactText hd.continuation (by decide) (by decide) hd.endBranch (by decide)
      narrowCases hheaders hcases⟩

/-- The switch variable looks like a line break. -/
def brokenVariable : Dialect := { standard with switchVariable := "&\n&" }

/-- A single branch. -/
def singleCase : List CaseText :=
  [⟨"nuclear", ⟨.s, .s⟩, ["wo(1,1) = F0"], ["g(1,1) = +wo(1,1)"]⟩]

/-- A switch variable on two lines may go with the line breaks, though marker, templates and
closing line are on one line. -/
theorem unwrap_artifactText_broken_variable :
    OneLine brokenVariable.continuation.toList ∧ OneLine brokenVariable.firstBranch.toList ∧
      OneLine brokenVariable.nextBranch.toList ∧ OneLine brokenVariable.defaultBranch.toList ∧
      OneLine brokenVariable.endBranch.toList ∧ "g" ≠ "" ∧
      "g".toList.head? ≠ brokenVariable.continuation.toList.head? ∧
      brokenVariable.endBranch.toList.head? ≠ brokenVariable.continuation.toList.head? ∧
      (∀ t ∈ singleCase, t.OnLine "g") ∧
      (brokenVariable.artifactText singleCase).map brokenVariable.unwrap ≠
        brokenVariable.chainText (singleCase.map CaseText.plainBranch) := by
  have hcases : ∀ t ∈ singleCase, t.OnLine "g" := by
    simp only [singleCase, List.forall_mem_cons]
    refine ⟨⟨?_, ?_⟩, List.forall_mem_nil _⟩ <;> decide
  have hjoined : (brokenVariable.artifactText singleCase).map brokenVariable.unwrap =
      .ok "if (.eq.17) then\n\nwo(1,1) = F0\n\ng(1,1) = +wo(1,1)\nend if" := by decide +kernel
  have hplain : brokenVariable.chainText (singleCase.map CaseText.plainBranch) =
      .ok "if (&\n&.eq.17) then\n\nwo(1,1) = F0\n\ng(1,1) = +wo(1,1)\nend if" := by decide +kernel
  refine ⟨by decide, by decide, by decide, by decide, by decide, by decide, by decide,
    by decide, hcases, ?_⟩
  rw [hjoined, hplain]
  decide

end Dialect

end GaussianIntegrals
