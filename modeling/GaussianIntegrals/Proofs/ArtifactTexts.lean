/-
  The texts of artifacts apart from the run that makes them, and that they exist. Every family
  has a text over every pair of shells in every dialect (`exists_caseText`). The templates of the
  standard headers can be filled in with every switch code, so every artifact has a text in the
  dialect of valid settings (`Settings.exists_texts`); in other dialects only a header can be
  missing. What settings ask for is said apart from the artifacts of a run (`Settings.isPlan_artifacts`).
-/
import GaussianIntegrals.Generation.Run
import GaussianIntegrals.Proofs.EmittedProgram
import GaussianIntegrals.Proofs.StandardHeaders

namespace GaussianIntegrals

open Expr Code

/-! ## Headers -/

namespace Dialect

/-- Every branch of a pair of shells has a header. -/
def HasHeaders (d : Dialect) : Prop :=
  ∀ (c : ShellPair) (position count : ℤ), ∃ header,
    d.branch c.switchCode position count = .ok header

/-- The switch codes are small enough to be written. -/
theorem hasHeaders_of_standard {d : Dialect} (hd : d.HasStandardHeaders) : d.HasHeaders := by
  intro c position count
  have hcodes : ∀ c : ShellPair, (c.switchCode : ℤ).natAbs ≤ 136 := by
    rintro ⟨a, b⟩
    cases a <;> cases b <;> decide
  have hcode : Text.writeInt (c.switchCode : ℤ) = .ok (toString (c.switchCode : ℤ)) :=
    (Text.writes_writeInt _).eq_ok (Text.writable_of_natAbs_le ((hcodes c).trans (by decide)))
  rw [branch_of_standard hd, hcode]
  split <;> exact ⟨_, rfl⟩

theorem HasHeaders.exists_branchTexts {d : Dialect} (hd : d.HasHeaders) (count : ℕ)
    (position : ℕ) (ts : List CaseText) :
    ∃ text, d.branchTexts count position (ts.map (CaseText.branch d)) = .ok text := by
  induction ts generalizing position with
  | nil => exact ⟨_, rfl⟩
  | cons t ts ih =>
    obtain ⟨header, hheader⟩ := hd t.pair position count
    obtain ⟨after, hafter⟩ := ih (position + 1)
    have hbranch : d.branch (t.branch d).code position count = .ok header := hheader
    exact ⟨_, by rw [List.map_cons, branchTexts, hbranch, hafter]; rfl⟩

theorem HasHeaders.exists_artifactText {d : Dialect} (hd : d.HasHeaders) (ts : List CaseText) :
    ∃ text, d.artifactText ts = .ok text := by
  obtain ⟨chain, hchain⟩ := hd.exists_branchTexts (ts.map (CaseText.branch d)).length 0 ts
  exact ⟨_, by rw [artifactText, chainText, hchain]; rfl⟩

end Dialect

/-- The dialect of valid settings has the standard headers. -/
theorem Settings.hasHeaders {s : Settings} {d : Dialect} (h : s.dialect = .ok d) :
    d.HasHeaders := by
  unfold Settings.dialect DialectSettings.check at h
  split at h
  · split at h
    · cases h
      exact Dialect.hasHeaders_of_standard ⟨rfl, rfl⟩
    · cases h
  · cases h

/-! ## Texts of the families -/

section Families

variable (n : FamilyName) (c : ShellPair) (d : Dialect)

/-- Every family has a text over every pair of shells, in every dialect. -/
theorem exists_caseText : ∃ t, n.family.caseText c d = .ok t := by
  have hraw : ∀ p ∈ n.family.entryOrder c, ∃ line,
      n.family.entryText d p.2.1 p.2.2 p.1 = .ok line := by
    intro p hp
    obtain ⟨haxis, h1, h2⟩ := mem_entryOrder.1 hp
    exact exists_entryText n d haxis (bounds_of_mem_sidePositions h1)
      (bounds_of_mem_sidePositions h2)
  have hrebased : ∀ p ∈ blockOrder c.basisSizes.1 c.basisSizes.2, ∃ line,
      n.family.table.renderCell (n.family.cellForm d) p.1 p.2 = .ok line := by
    intro p hp
    obtain ⟨hr, hc⟩ := mem_blockOrder.1 hp
    obtain ⟨f, hf, -, -, hw⟩ := (serves_family n).exists_formula c hr hc
    have hcell := RebasingTable.writable_of_mem_blockOrder (writable_basisSize c.first)
      (writable_basisSize c.second) hp
    exact ⟨_, renderCell_eq_ok hcell hf hw⟩
  choose! rawLine hrawLine using hraw
  choose! rebasedLine hrebasedLine using hrebased
  have hrender : n.family.table.render (n.family.cellForm d) c.basisSizes.1 c.basisSizes.2 =
      .ok ((blockOrder c.basisSizes.1 c.basisSizes.2).map rebasedLine) :=
    mapM_eq_ok hrebasedLine
  exact ⟨_, bind_eq_ok.2 ⟨_, mapM_eq_ok hrawLine, by rw [hrender]; rfl⟩⟩

end Families

/-! ## Texts of the artifacts -/

/-- The texts of a family over some pairs of shells. -/
def Family.caseTexts (f : Family) (pairs : List ShellPair) (d : Dialect) :
    Except RunError (List CaseText) :=
  pairs.mapM fun c => (f.caseText c d).mapError .case

/-- The text of an artifact. -/
def Artifact.text (pairs : List ShellPair) (d : Dialect) : Artifact → Except RunError String
  | .family n => do (d.artifactText (← n.family.caseTexts pairs d)).mapError .template
  | .closedForms => d.closedFormsText.mapError .boys
  | .series => .ok d.seriesText

/-- The file of a family. -/
def FamilyName.fileName : FamilyName → String
  | .nuclear => "NucIntg"
  | .kinetic => "KE_Intg"
  | .momentum => "momIntg"

/-- The files that settings ask for, paths and texts: those of the families in their order, and then
the closed forms and the series of the Boys function where these are asked for. -/
def Settings.IsPlan (pairs : List ShellPair) (s : Settings) (d : Dialect)
    (plan : List (String × String)) : Prop :=
  ∃ (family : FamilyName → String) (closedForms series : String),
    (∀ n, (Artifact.family n).text pairs d = .ok (family n)) ∧
    Artifact.closedForms.text pairs d = .ok closedForms ∧
    Artifact.series.text pairs d = .ok series ∧
    plan = s.families.map (fun n => (Path.join s.outputDir n.fileName, family n)) ++
      if s.boys then [(Path.join s.outputDir "gamma", closedForms),
        (Path.join s.outputDir "approx", series)] else []

theorem exists_closedFormsText (d : Dialect) : ∃ text, d.closedFormsText = .ok text := by
  have hok : (Boys.closedFormTexts Boys.greatestOrder).isOk = true := by decide +kernel
  cases htexts : Boys.closedFormTexts Boys.greatestOrder with
  | ok texts => exact ⟨_, by rw [Dialect.closedFormsText, htexts]; rfl⟩
  | error e => simp [htexts, Except.isOk, Except.toBool] at hok

theorem exists_caseTexts (n : FamilyName) (pairs : List ShellPair) (d : Dialect) :
    ∃ ts, n.family.caseTexts pairs d = .ok ts := by
  choose t ht using fun c => exists_caseText n c d
  exact ⟨_, mapM_eq_ok fun c _ => by rw [ht c]; rfl⟩

/-- An artifact has a text wherever the branches have headers. -/
theorem Dialect.HasHeaders.exists_text {d : Dialect} (hd : d.HasHeaders) (pairs : List ShellPair)
    (a : Artifact) : ∃ text, a.text pairs d = .ok text := by
  cases a with
  | family n =>
    obtain ⟨ts, hts⟩ := exists_caseTexts n pairs d
    obtain ⟨text, htext⟩ := hd.exists_artifactText ts
    exact ⟨text, by rw [Artifact.text, hts]; simp [bind, Except.bind, htext, Except.mapError]⟩
  | closedForms =>
    obtain ⟨text, htext⟩ := exists_closedFormsText d
    exact ⟨text, by rw [Artifact.text, htext]; rfl⟩
  | series => exact ⟨_, rfl⟩

/-- All artifacts have texts in the dialect of valid settings. -/
theorem Settings.exists_texts {s : Settings} {d : Dialect} (h : s.dialect = .ok d)
    (pairs : List ShellPair) : ∃ text : Artifact → String,
      ∀ a : Artifact, a.text pairs d = .ok (text a) := by
  choose text htext using (Settings.hasHeaders h).exists_text pairs
  exact ⟨text, htext⟩

/-- The artifacts of a run are the files that its settings ask for. -/
theorem Settings.isPlan_artifacts {pairs : List ShellPair} {d : Dialect} {text : Artifact → String}
    (htext : ∀ a : Artifact, a.text pairs d = .ok (text a)) (s : Settings) :
    s.IsPlan pairs d (s.artifacts.map fun a => (a.path s.outputDir, text a)) := by
  refine ⟨fun n => text (.family n), text .closedForms, text .series, fun n => htext _, htext _,
    htext _, ?_⟩
  have hpath : ∀ n : FamilyName, (Artifact.family n).path s.outputDir =
      Path.join s.outputDir n.fileName := by
    intro n
    cases n <;> rfl
  rw [artifacts, List.map_append, List.map_map]
  refine congrArg₂ _ (List.map_congr_left fun n _ => ?_) ?_
  · exact congrArg (·, text (.family n)) (hpath n)
  · split <;> rfl

end GaussianIntegrals
