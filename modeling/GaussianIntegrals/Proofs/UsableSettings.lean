/-
  Which accepted settings a run can use. The settings and the dialect of a run are checked by
  different checks. Both refuse a line width that is not positive; an empty continuation marker is
  refused by the dialect only. So a settings file with the line `continuation =` is accepted
  (`read_empty_marker`), and no run can use its settings.

  This is the only gap (`accepted_settings_usable_iff`). A text and changes after it give usable
  settings if and only if the last marker that they name is not empty. With usable settings, all
  that can go wrong in a run is its output: the directory or a file in it. Without, the run ends
  before it has touched a file.
-/
import GaussianIntegrals.Proofs.GenerationRuns
import GaussianIntegrals.Settings.File

namespace GaussianIntegrals

/-! ## The last value counts -/

/-- Where each step takes a new value of a field or keeps the old one, the last new value stays. -/
theorem eq_last_of_foldlM {σ α β ε : Type} {f : σ → α → Except ε σ} {field : σ → β}
    {value? : α → Option β}
    (hstep : ∀ s a s', f s a = .ok s' → field s' = (value? a).getD (field s)) {as : List α}
    {s s' : σ} (h : as.foldlM f s = .ok s') :
    field s' = (as.filterMap value?).getLast?.getD (field s) := by
  induction as generalizing s with
  | nil =>
    cases h
    rfl
  | cons a as ih =>
    rw [List.foldlM_cons, bind_eq_ok] at h
    obtain ⟨s₁, hfirst, hrest⟩ := h
    rw [ih hrest, hstep s a s₁ hfirst]
    cases ha : value? a with
    | none => rw [List.filterMap_cons_none ha, Option.getD_none]
    | some b =>
      rw [List.filterMap_cons_some ha, List.getLast?_cons, Option.getD_some, Option.getD_some]

/-- The continuation marker where nothing else is asked for. -/
def defaultMarker : String := Settings.standard.continuation

/-- The marker of the settings that a change of the defaults gives. -/
def SettingsChange.marker (c : SettingsChange) : String := c.continuation.getD defaultMarker

namespace SettingsFile

/-- The line is blank or a comment. -/
def Silent (line : List Char) : Prop := line = [] ∨ line.head? = some '#'

instance (line : List Char) : Decidable (Silent line) := inferInstanceAs (Decidable (_ ∨ _))

theorem isSilent_iff {line : List Char} : isSilent line = true ↔ Silent line := by
  cases line <;> simp [isSilent, Silent]

/-- The key, in lower case, and the value of a line that sets something. -/
def setting? (line : List Char) : Option (String × List Char) :=
  if line.head? = some '#' then none
  else
    match line.dropWhile (· != '=') with
    | [] => none
    | _ :: value =>
      some (String.ofList (Text.lower (Text.strip (line.takeWhile (· != '=')))), Text.strip value)

/-- The continuation marker that a line sets. -/
def marker? (line : List Char) : Option String :=
  (setting? line).bind fun setting =>
    if setting.1 = "continuation" then some (String.ofList setting.2) else none

theorem setting?_of_silent {line : List Char} (h : Silent line) : setting? line = none := by
  rcases h with rfl | h
  · rfl
  · exact if_pos h

theorem readLine_eq_ok {c c' : SettingsChange} {line : List Char} (h : readLine c line = .ok c') :
    (setting? line = none ∧ c' = c) ∨
      ∃ key value, setting? line = some (key, value) ∧ set c key value = .ok c' := by
  unfold readLine at h
  by_cases hsilent : Silent line
  · rw [if_pos (isSilent_iff.2 hsilent)] at h
    cases h
    exact .inl ⟨setting?_of_silent hsilent, rfl⟩
  · rw [if_neg (mt isSilent_iff.1 hsilent)] at h
    rw [setting?, if_neg fun hcomment => hsilent (.inr hcomment)]
    cases hvalue : line.dropWhile (· != '=') with
    | nil =>
      rw [hvalue] at h
      cases h
    | cons sign value =>
      rw [hvalue] at h
      exact .inr ⟨_, _, rfl, h⟩

/-- The change with a value under its key; a value that cannot be read is none. -/
def record (c : SettingsChange) (key : String) (value : List Char) : SettingsChange where
  outputDir := if key = "output_dir" then some (String.ofList value) else c.outputDir
  families := if key = "families" then some (names value) else c.families
  boys := if key = "boys" then (boolean value).toOption else c.boys
  lineWidth := if key = "line_width" then (integer value).toOption else c.lineWidth
  continuation := if key = "continuation" then some (String.ofList value) else c.continuation
  workers := if key = "workers" then (integer value).toOption else c.workers
  logDir := if key = "log_dir" then some (String.ofList value) else c.logDir
  logLevel := if key = "log_level" then some (String.ofList value) else c.logLevel

theorem set_eq_record {c c' : SettingsChange} {key : String} {value : List Char}
    (h : set c key value = .ok c') : c' = record c key value := by
  unfold set at h
  split at h
  -- a yes or no and integers have to be read, and no setting has another key
  case h_3 | h_4 | h_6 =>
    obtain ⟨x, hx, h⟩ := bind_eq_ok.1 h
    cases h
    simp [record, hx, Except.toOption]
  case h_9 => cases h
  all_goals
    cases h
    simp [record]

theorem readLine_marker {c c' : SettingsChange} {line : List Char} (h : readLine c line = .ok c') :
    c'.marker = (marker? line).getD c.marker := by
  obtain ⟨hnone, rfl⟩ | ⟨key, value, hsetting, hset⟩ := readLine_eq_ok h
  · rw [marker?, hnone]
    rfl
  · rw [SettingsChange.marker, set_eq_record hset, record, marker?, hsetting, Option.bind_some]
    dsimp only
    split
    · rfl
    · rfl

/-- A settings file gives the last marker that its lines set. -/
theorem readChange_marker {text : String} {c : SettingsChange} (h : readChange text = .ok c) :
    c.marker = ((lines text).filterMap marker?).getLast?.getD defaultMarker :=
  eq_last_of_foldlM (f := readLine) (fun _ _ _ => readLine_marker) h

end SettingsFile

namespace Settings

theorem updated_continuation {s s' : Settings} {c : SettingsChange} (h : s.updated c = .ok s') :
    s'.continuation = c.continuation.getD s.continuation := by
  obtain ⟨families, -, h⟩ := bind_eq_ok.1 h
  dsimp only at h
  split at h
  · split at h
    · obtain ⟨level, -, h⟩ := bind_eq_ok.1 h
      cases h
      rfl
    · cases h
  · cases h

/-- A dialect lacks nothing but a marker. -/
theorem dialect_eq (s : Settings) :
    (s.continuation = "" → s.dialect = .error .noMarker) ∧
      (s.continuation ≠ "" → ∃ d, s.dialect = .ok d) := by
  unfold dialect DialectSettings.check
  rw [dif_pos s.lineWidth_pos]
  constructor
  · intro h
    rw [dif_neg (not_not.2 h)]
  · intro h
    rw [dif_pos h]
    exact ⟨_, rfl⟩

end Settings

/-- The last marker that a settings file and changes after it name. -/
def lastMarker (text : String) (changes : List SettingsChange) : String :=
  ((SettingsFile.lines text).filterMap SettingsFile.marker? ++
    changes.filterMap (·.continuation)).getLast?.getD defaultMarker

theorem continuation_eq_lastMarker {text : String} {changes : List SettingsChange}
    {s₀ s : Settings} (hread : SettingsFile.read text = .ok s₀)
    (hchanges : changes.foldlM Settings.updated s₀ = .ok s) :
    s.continuation = lastMarker text changes := by
  obtain ⟨c, hc, hread⟩ := bind_eq_ok.1 hread
  have hfile : s₀.continuation = c.marker :=
    Settings.updated_continuation (mapError_eq_ok.1 hread)
  have hlast : s.continuation =
      (changes.filterMap (·.continuation)).getLast?.getD s₀.continuation :=
    eq_last_of_foldlM (f := Settings.updated) (fun _ _ _ => Settings.updated_continuation) hchanges
  rw [hlast, hfile, SettingsFile.readChange_marker hc, lastMarker, List.getLast?_append,
    Option.getD_or]

/-! ## Runs with accepted settings -/

/-- The error is about the output of a run, and its wording says which. -/
inductive RunError.AboutOutput (dir : String) : RunError → Prop where
  | directory {e : FileError} (hmessage : (RunError.directory dir e).message =
      s!"Cannot create output directory {dir}: {e.message}") : AboutOutput dir (.directory dir e)
  | artifact {path : String} {e : FileError} (hmessage : (RunError.artifact path e).message =
      s!"Error opening file {path}: {e.message}") : AboutOutput dir (.artifact path e)

section

variable {S : Type} [Host (StateM S)] {v : FileView S} {pairs : List ShellPair} {s : Settings}
  {w w' : S} {r : Except RunError (List String)}

/-- Settings without a dialect end the run before it begins. -/
theorem GenerationEnds.of_dialect_error (h : GenerationEnds v pairs s w r w') {e : DialectError}
    (hdialect : s.dialect = .error e) : r = .error (.dialect e) ∧ w' = w := by
  cases h with
  | noDialect h =>
    rw [hdialect] at h
    cases h
    exact ⟨rfl, rfl⟩
  | noDirectory h | stopped h | finished h =>
    rw [hdialect] at h
    cases h

theorem GenerationEnds.aboutOutput (h : GenerationEnds v pairs s w r w') {d : Dialect}
    (hdialect : s.dialect = .ok d) (hnull : '\x00' ∉ s.outputDir.toList) {e : RunError}
    (he : r = .error e) : e.AboutOutput s.outputDir := by
  cases h with
  | noDialect h =>
    rw [hdialect] at h
    cases h
  | noDirectory _ _ _ hmessage =>
    cases he
    exact .directory (hmessage hnull)
  | stopped _ _ _ _ _ _ _ _ _ hmessage =>
    cases he
    exact .artifact (hmessage hnull)
  | finished => cases he

end

/-- **Accepted settings are usable if and only if their last marker is not empty.** Nothing else
that a settings file or a change can say is refused by the dialect. With such a marker a run can
fail only for its output; with an empty one it fails before it has touched a file. An output
directory with a null character is no path, and no error of the operating system. -/
theorem accepted_settings_usable_iff {text : String} {changes : List SettingsChange}
    {s₀ s : Settings} (hread : SettingsFile.read text = .ok s₀)
    (hchanges : changes.foldlM Settings.updated s₀ = .ok s) :
    ((∃ d, s.dialect = .ok d) ↔ lastMarker text changes ≠ "") ∧
    ∀ {S : Type} [Host (StateM S)] {v : FileView S}, v.Lawful → ∀ (pairs : List ShellPair) {w : S},
      v.Fit w → ∃ r w', (s.generate pairs : Run (StateM S) (List String)).run.run w = (r, w') ∧
        (lastMarker text changes = "" → r = .error (.dialect .noMarker) ∧ w' = w) ∧
        (lastMarker text changes ≠ "" → '\x00' ∉ s.outputDir.toList →
          ∀ e, r = .error e → e.AboutOutput s.outputDir) := by
  obtain ⟨hnoMarker, hmarker⟩ := s.dialect_eq
  rw [continuation_eq_lastMarker hread hchanges] at hnoMarker hmarker
  refine ⟨⟨fun ⟨d, hd⟩ hempty => ?_, hmarker⟩, fun hv pairs w hw => ?_⟩
  · rw [hnoMarker hempty] at hd
    cases hd
  · obtain ⟨r, w', hrun, hends⟩ := hv.generationEnds pairs s hw
    refine ⟨r, w', hrun, fun hempty => hends.of_dialect_error (hnoMarker hempty),
      fun hne hnull e he => ?_⟩
    obtain ⟨d, hd⟩ := hmarker hne
    exact hends.aboutOutput hd hnull he

/-- A tree without files. -/
def emptyWorkspace : Workspace := { tree := ⟨[], []⟩ }

theorem emptyWorkspace_fit : (Workspace.view []).Fit emptyWorkspace := ⟨rfl, rfl⟩

theorem exists_of_toOption {ε α β : Type} {x : Except ε α} {f : α → β} {b : β}
    (h : x.toOption.map f = some b) : ∃ a, x = .ok a ∧ f a = b := by
  cases x with
  | error e => cases h
  | ok a => exact ⟨a, rfl, Option.some.inj h⟩

/-- A settings file whose only line sets no marker is accepted. -/
theorem read_empty_marker :
    ∃ s, SettingsFile.read "continuation =\n" = .ok s ∧ s.dialect = .error .noMarker := by
  have hread : (SettingsFile.read "continuation =\n").toOption.map (·.continuation) = some "" := by
    decide +kernel
  obtain ⟨s, hs, hempty⟩ := exists_of_toOption hread
  exact ⟨s, hs, s.dialect_eq.1 hempty⟩

/-- A run with the settings of that file leaves an empty tree empty; they become usable when a
change names a marker. -/
theorem accepted_settings_usable_iff_after_change :
    ∃ s₀ s, SettingsFile.read "continuation =\n" = .ok s₀ ∧ (¬ ∃ d, s₀.dialect = .ok d) ∧
      (s₀.generate [⟨.s, .s⟩] : Run (StateM Workspace) (List String)).run.run emptyWorkspace =
        (.error (.dialect .noMarker), emptyWorkspace) ∧
      [({ continuation := some "@" } : SettingsChange)].foldlM Settings.updated s₀ = .ok s ∧
      ∃ d, s.dialect = .ok d := by
  have hread : ((SettingsFile.read "continuation =\n").bind fun s₀ =>
      ([({ continuation := some "@" } : SettingsChange)].foldlM Settings.updated s₀).mapError
        SettingsFileError.settings).toOption.map (·.continuation) = some "@" := by
    decide +kernel
  obtain ⟨s, hs, -⟩ := exists_of_toOption hread
  obtain ⟨s₀, hread, hs⟩ := bind_eq_ok.1 hs
  have hchanges := mapError_eq_ok.1 hs
  have hnone : ([] : List SettingsChange).foldlM Settings.updated s₀ = .ok s₀ := rfl
  have hempty : lastMarker "continuation =\n" [] = "" := by decide +kernel
  have hnamed : lastMarker "continuation =\n" [{ continuation := some "@" }] ≠ "" := by
    decide +kernel
  obtain ⟨husable, hruns⟩ := accepted_settings_usable_iff hread hnone
  obtain ⟨r, w', hrun, hends, -⟩ := hruns (Workspace.lawful []) [⟨.s, .s⟩] emptyWorkspace_fit
  obtain ⟨rfl, rfl⟩ := hends hempty
  exact ⟨s₀, s, hread, fun hd => husable.1 hd hempty, hrun, hchanges,
    (accepted_settings_usable_iff hread hchanges).1.2 hnamed⟩

end GaussianIntegrals
