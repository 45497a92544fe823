/-
  Settings along a chain of changes. Seen from outside, settings are plain values, sound or not
  (`PlainSettings`), and a change merges its values into them. `Settings.updated_eq_ok_iff` says all
  that a change of settings does: it succeeds if and only if the merged values are sound, and the new
  settings have just these values. So what holds of a chain is shown for plain values, by one step
  (`PlainSettings.Sound.next`) and then for the run (`PlainSettings.Sound.of_mem_scanl`), and checked
  settings follow the plain ones (`Settings.map_plain_scanl`).

  Changes that all succeed are one change by the last value of each setting
  (`Settings.updated_last`). The values in between may not be left out of a chain in which some
  change fails.
-/
import GaussianIntegrals.Proofs.UsableSettings

namespace GaussianIntegrals

/-- Values for all settings, not checked. -/
@[ext]
structure PlainSettings where
  outputDir : String
  families : List String
  boys : Bool
  lineWidth : Int
  continuation : String
  workers : Int
  logDir : String
  logLevel : String
  deriving DecidableEq, Repr

namespace PlainSettings

/-- The values of a change, for all that it does not name those from before, and the log level in
capitals. -/
def merge (p : PlainSettings) (c : SettingsChange) : PlainSettings where
  outputDir := c.outputDir.getD p.outputDir
  families := c.families.getD p.families
  boys := c.boys.getD p.boys
  lineWidth := c.lineWidth.getD p.lineWidth
  continuation := c.continuation.getD p.continuation
  workers := c.workers.getD p.workers
  logDir := c.logDir.getD p.logDir
  logLevel := Text.uppered (c.logLevel.getD p.logLevel)

/-- The conditions of settings. -/
structure Sound (p : PlainSettings) : Prop where
  families : ∀ name ∈ p.families, name ∈ FamilyName.all.map FamilyName.text
  workers : 1 ≤ p.workers
  lineWidth : 1 ≤ p.lineWidth
  logLevel : p.logLevel ∈ LogLevel.all.map LogLevel.text

instance (p : PlainSettings) : Decidable p.Sound :=
  decidable_of_iff ((∀ name ∈ p.families, name ∈ FamilyName.all.map FamilyName.text) ∧
      1 ≤ p.workers ∧ 1 ≤ p.lineWidth ∧ p.logLevel ∈ LogLevel.all.map LogLevel.text)
    ⟨fun h => ⟨h.1, h.2.1, h.2.2.1, h.2.2.2⟩,
      fun h => ⟨h.families, h.workers, h.lineWidth, h.logLevel⟩⟩

/-- The values after an attempt to change them; they stay where the merged ones are not sound. -/
def next (p : PlainSettings) (c : SettingsChange) : PlainSettings :=
  if (p.merge c).Sound then p.merge c else p

/-- One attempt keeps values sound. -/
theorem Sound.next {p : PlainSettings} (h : p.Sound) (c : SettingsChange) : (p.next c).Sound := by
  unfold PlainSettings.next
  split
  · assumption
  · exact h

/-- Values that are sound at the beginning of a chain are sound all along it. -/
theorem Sound.of_mem_scanl {p : PlainSettings} (h : p.Sound) (changes : List SettingsChange) :
    ∀ q ∈ changes.scanl PlainSettings.next p, q.Sound := by
  induction changes generalizing p with
  | nil => simpa using h
  | cons c changes ih =>
    rw [List.scanl_cons, List.forall_mem_cons]
    exact ⟨h, ih (h.next c)⟩

/-- The log levels are in capitals. -/
theorem Sound.uppered_logLevel {p : PlainSettings} (h : p.Sound) :
    Text.uppered p.logLevel = p.logLevel := by
  have hall : ∀ name ∈ LogLevel.all.map LogLevel.text, Text.uppered name = name := by
    decide +kernel
  exact hall _ h.logLevel

end PlainSettings

/-! ## Names -/

theorem FamilyName.ofText?_eq_some_iff {name : String} {f : FamilyName} :
    FamilyName.ofText? name = some f ↔ name = f.text := by
  constructor
  · intro h
    have hname := List.find?_some h
    exact (eq_of_beq hname).symm
  · rintro rfl
    cases f <;> decide

theorem LogLevel.ofText?_eq_some_iff {name : String} {l : LogLevel} :
    LogLevel.ofText? name = some l ↔ name = l.text := by
  constructor
  · intro h
    have hname := List.find?_some h
    exact (eq_of_beq hname).symm
  · rintro rfl
    cases l <;> decide

namespace Settings

theorem familiesOf_eq_ok_iff {names : List String} {fs : List FamilyName} :
    familiesOf names = .ok fs ↔ names = fs.map FamilyName.text := by
  unfold familiesOf
  rw [mapM_eq_ok_iff, ← List.forall₂_eq_eq_eq, List.forall₂_map_right_iff]
  constructor
  · intro h
    refine h.imp fun name f hf => ?_
    split at hf
    · next f' hname =>
      cases hf
      exact FamilyName.ofText?_eq_some_iff.1 hname
    · cases hf
  · intro h
    refine h.imp fun name f hf => ?_
    rw [FamilyName.ofText?_eq_some_iff.2 hf]

theorem levelOf_eq_ok_iff {name : String} {l : LogLevel} :
    levelOf name = .ok l ↔ Text.uppered name = l.text := by
  unfold levelOf
  rw [← LogLevel.ofText?_eq_some_iff]
  cases LogLevel.ofText? (Text.uppered name) <;> simp

/-! ## One change -/

/-- The values of settings. -/
def plain (s : Settings) : PlainSettings where
  outputDir := s.outputDir
  families := s.families.map FamilyName.text
  boys := s.boys
  lineWidth := s.lineWidth
  continuation := s.continuation
  workers := s.workers
  logDir := s.logDir
  logLevel := s.logLevel.text

theorem plain_sound (s : Settings) : s.plain.Sound where
  families := by
    intro name hname
    obtain ⟨f, -, rfl⟩ := List.mem_map.1 hname
    exact List.mem_map_of_mem (by cases f <;> decide)
  workers := s.workers_pos
  lineWidth := s.lineWidth_pos
  logLevel := List.mem_map_of_mem (by cases s.logLevel <;> decide)

/-- Settings with the same values are the same. -/
theorem plain_injective {s s' : Settings} (h : s.plain = s'.plain) : s = s' := by
  have hfamilies : s.families = s'.families := by
    have hread := familiesOf_eq_ok_iff.2 (congrArg PlainSettings.families h)
    exact Except.ok.inj ((familiesOf_eq_ok_iff.2 rfl).symm.trans hread)
  have hlevel : s.logLevel = s'.logLevel := by
    have hread := LogLevel.ofText?_eq_some_iff.2 (congrArg PlainSettings.logLevel h)
    exact Option.some.inj ((LogLevel.ofText?_eq_some_iff.2 rfl).symm.trans hread)
  have hdir : s.outputDir = s'.outputDir := congrArg PlainSettings.outputDir h
  have hboys : s.boys = s'.boys := congrArg PlainSettings.boys h
  have hwidth : s.lineWidth = s'.lineWidth := congrArg PlainSettings.lineWidth h
  have hmarker : s.continuation = s'.continuation := congrArg PlainSettings.continuation h
  have hworkers : s.workers = s'.workers := congrArg PlainSettings.workers h
  have hlogs : s.logDir = s'.logDir := congrArg PlainSettings.logDir h
  cases s
  cases s'
  subst hfamilies hlevel hdir hboys hwidth hmarker hworkers hlogs
  rfl

/-- Sound values are those of some settings. -/
theorem exists_plain_eq {p : PlainSettings} (h : p.Sound) : ∃ s : Settings, s.plain = p := by
  obtain ⟨fs, hfs⟩ : ∃ fs : List FamilyName, fs.map FamilyName.text = p.families := by
    have hrange : p.families ∈ Set.range (List.map FamilyName.text) := by
      rw [Set.range_list_map]
      intro name hname
      obtain ⟨f, -, hf⟩ := List.mem_map.1 (h.families name hname)
      exact ⟨f, hf⟩
    exact hrange
  obtain ⟨l, -, hl⟩ := List.mem_map.1 h.logLevel
  refine ⟨{
    outputDir := p.outputDir, families := fs, boys := p.boys, lineWidth := p.lineWidth
    continuation := p.continuation, workers := p.workers, logDir := p.logDir, logLevel := l
    lineWidth_pos := h.lineWidth, workers_pos := h.workers }, ?_⟩
  rw [plain, hfs, hl]

/-- A change succeeds if and only if the merged values are sound, and gives these values. -/
theorem updated_eq_ok_iff {s s' : Settings} {c : SettingsChange} :
    s.updated c = .ok s' ↔ (s.plain.merge c).Sound ∧ s'.plain = s.plain.merge c := by
  have hgives : ∀ {s' : Settings}, s.updated c = .ok s' → s'.plain = s.plain.merge c := by
    intro s' h
    obtain ⟨families, hfamilies, h⟩ := bind_eq_ok.1 h
    dsimp only at h
    split at h
    · split at h
      · obtain ⟨level, hlevel, h⟩ := bind_eq_ok.1 h
        cases h
        ext1
        any_goals rfl
        · exact (familiesOf_eq_ok_iff.1 hfamilies).symm
        · exact (levelOf_eq_ok_iff.1 hlevel).symm
      · cases h
    · cases h
  constructor
  · intro h
    have hplain := hgives h
    exact ⟨hplain ▸ s'.plain_sound, hplain⟩
  · rintro ⟨hsound, hplain⟩
    have hfamilies := familiesOf_eq_ok_iff.2 (congrArg PlainSettings.families hplain).symm
    have hlevel := levelOf_eq_ok_iff.2 (congrArg PlainSettings.logLevel hplain).symm
    have hworkers : 0 < c.workers.getD s.workers := hsound.workers
    have hwidth : 0 < c.lineWidth.getD s.lineWidth := hsound.lineWidth
    refine bind_eq_ok.2 ⟨s'.families, hfamilies, ?_⟩
    dsimp only
    rw [dif_pos hworkers, dif_pos hwidth]
    refine bind_eq_ok.2 ⟨s'.logLevel, hlevel, congrArg Except.ok (plain_injective ?_)⟩
    rw [hplain]
    ext1
    any_goals rfl
    · exact (familiesOf_eq_ok_iff.1 hfamilies).symm
    · exact (levelOf_eq_ok_iff.1 hlevel).symm

theorem exists_updated_iff {s : Settings} {c : SettingsChange} :
    (∃ s', s.updated c = .ok s') ↔ (s.plain.merge c).Sound := by
  simp only [updated_eq_ok_iff]
  constructor
  · rintro ⟨s', hsound, -⟩
    exact hsound
  · intro hsound
    obtain ⟨s', hs'⟩ := exists_plain_eq hsound
    exact ⟨s', hsound, hs'⟩

theorem exists_error_iff {s : Settings} {c : SettingsChange} :
    (∃ e, s.updated c = .error e) ↔ ¬ (s.plain.merge c).Sound := by
  rw [← exists_updated_iff]
  cases s.updated c <;> simp

end Settings

/-- The values behind a change: those that it names, a log level in capitals, and otherwise those
in front of it. -/
structure SettingsChange.TakesEffect (c : SettingsChange) (p q : PlainSettings) : Prop where
  outputDir : q.outputDir = c.outputDir.getD p.outputDir
  families : q.families = c.families.getD p.families
  boys : q.boys = c.boys.getD p.boys
  lineWidth : q.lineWidth = c.lineWidth.getD p.lineWidth
  continuation : q.continuation = c.continuation.getD p.continuation
  workers : q.workers = c.workers.getD p.workers
  logDir : q.logDir = c.logDir.getD p.logDir
  logLevel : q.logLevel = (c.logLevel.map Text.uppered).getD p.logLevel

theorem PlainSettings.Sound.takesEffect_merge {p : PlainSettings} (h : p.Sound)
    (c : SettingsChange) : c.TakesEffect p (p.merge c) where
  outputDir := rfl
  families := rfl
  boys := rfl
  lineWidth := rfl
  continuation := rfl
  workers := rfl
  logDir := rfl
  logLevel := by
    show Text.uppered (c.logLevel.getD p.logLevel) = _
    cases c.logLevel with
    | none => exact h.uppered_logLevel
    | some name => rfl

namespace Settings

theorem takesEffect_of_updated {s s' : Settings} {c : SettingsChange} (h : s.updated c = .ok s') :
    c.TakesEffect s.plain s'.plain := by
  rw [(updated_eq_ok_iff.1 h).2]
  exact s.plain_sound.takesEffect_merge c

/-! ## Chains of changes -/

/-- The settings after an attempt to change them; they stay where the change fails. -/
def next (s : Settings) (c : SettingsChange) : Settings := (s.updated c).toOption.getD s

theorem next_of_eq_ok {s s' : Settings} {c : SettingsChange} (h : s.updated c = .ok s') :
    s.next c = s' := by
  rw [next, h]
  rfl

theorem plain_next (s : Settings) (c : SettingsChange) : (s.next c).plain = s.plain.next c := by
  unfold PlainSettings.next
  split
  · next hsound =>
    obtain ⟨s', h⟩ := exists_updated_iff.2 hsound
    rw [next_of_eq_ok h, (updated_eq_ok_iff.1 h).2]
  · next hsound =>
    obtain ⟨e, h⟩ := exists_error_iff.2 hsound
    rw [next, h]
    rfl

/-- Settings follow their values along a chain. -/
theorem map_plain_scanl (s : Settings) (changes : List SettingsChange) :
    (changes.scanl next s).map plain = changes.scanl PlainSettings.next s.plain := by
  induction changes generalizing s with
  | nil => rfl
  | cons c changes ih =>
    rw [List.scanl_cons, List.scanl_cons, List.map_cons, ih, plain_next]

theorem foldl_next_of_foldlM {s₀ s : Settings} {changes : List SettingsChange}
    (h : changes.foldlM updated s₀ = .ok s) : changes.foldl next s₀ = s := by
  induction changes generalizing s₀ with
  | nil =>
    cases h
    rfl
  | cons c changes ih =>
    rw [List.foldlM_cons, bind_eq_ok] at h
    obtain ⟨s₁, hfirst, hrest⟩ := h
    rw [List.foldl_cons, next_of_eq_ok hfirst]
    exact ih hrest

end Settings

/-- The last value that changes name for each setting. -/
def SettingsChange.last (changes : List SettingsChange) : SettingsChange where
  outputDir := (changes.filterMap (·.outputDir)).getLast?
  families := (changes.filterMap (·.families)).getLast?
  boys := (changes.filterMap (·.boys)).getLast?
  lineWidth := (changes.filterMap (·.lineWidth)).getLast?
  continuation := (changes.filterMap (·.continuation)).getLast?
  workers := (changes.filterMap (·.workers)).getLast?
  logDir := (changes.filterMap (·.logDir)).getLast?
  logLevel := (changes.filterMap (·.logLevel)).getLast?

namespace Settings

variable {s₀ s : Settings} {changes : List SettingsChange}
  (h : changes.foldlM updated s₀ = .ok s)

include h

/-- A field that every change sets to the value that it names, if any, holds the last of them. -/
theorem eq_last_of_updated {β : Type} {field : PlainSettings → β}
    {value? : SettingsChange → Option β}
    (hfield : ∀ c p q, c.TakesEffect p q → field q = (value? c).getD (field p)) :
    field s.plain = (changes.filterMap value?).getLast?.getD (field s₀.plain) := by
  have hstep : ∀ s c s', Settings.updated s c = .ok s' →
      (field ∘ plain) s' = (value? c).getD ((field ∘ plain) s) := fun _ c _ hc =>
    hfield c _ _ (takesEffect_of_updated hc)
  exact eq_last_of_foldlM hstep h

/-- Changes that all succeed are one change, by the last value of each setting. -/
theorem updated_last : s₀.updated (SettingsChange.last changes) = .ok s := by
  have hplain : s.plain = s₀.plain.merge (SettingsChange.last changes) := by
    ext1
    · exact eq_last_of_updated h fun _ _ _ hc => hc.outputDir
    · exact eq_last_of_updated h fun _ _ _ hc => hc.families
    · exact eq_last_of_updated h fun _ _ _ hc => hc.boys
    · exact eq_last_of_updated h fun _ _ _ hc => hc.lineWidth
    · exact eq_last_of_updated h fun _ _ _ hc => hc.continuation
    · exact eq_last_of_updated h fun _ _ _ hc => hc.workers
    · exact eq_last_of_updated h fun _ _ _ hc => hc.logDir
    · rw [eq_last_of_updated h fun _ _ _ hc => hc.logLevel, ← List.map_filterMap,
        List.getLast?_map]
      exact (s₀.plain_sound.takesEffect_merge (SettingsChange.last changes)).logLevel.symm
  exact updated_eq_ok_iff.2 ⟨hplain ▸ s.plain_sound, hplain⟩

end Settings

/-- **Settings are sound along every chain of changes.** Whatever the settings at the beginning and
the changes are, where a change that fails leaves the settings as they were: all settings of the
chain name known families, at least one worker, a positive line width and one of the log levels, in
capitals; a change that succeeds gives the values that it names and keeps all others; a change fails
if and only if the merged values break one of those conditions; and if all changes succeed, the last
settings are those of one change by the last value of each setting. -/
theorem settings_along_changes (s₀ : Settings) (changes : List SettingsChange) :
    (changes.scanl Settings.next s₀).map Settings.plain =
        changes.scanl PlainSettings.next s₀.plain ∧
    (∀ s ∈ changes.scanl Settings.next s₀, s.plain.Sound ∧
      Text.uppered s.plain.logLevel = s.plain.logLevel) ∧
    (∀ s s' c, Settings.updated s c = .ok s' → c.TakesEffect s.plain s'.plain) ∧
    (∀ s c, (∃ e, Settings.updated s c = .error e) ↔ ¬ (s.plain.merge c).Sound) ∧
    ∀ s, changes.foldlM Settings.updated s₀ = .ok s →
      changes.foldl Settings.next s₀ = s ∧ s₀.updated (SettingsChange.last changes) = .ok s := by
  refine ⟨s₀.map_plain_scanl changes, fun s hs => ?_, fun s s' c => Settings.takesEffect_of_updated,
    fun s c => Settings.exists_error_iff, fun s h => ?_⟩
  · have hmem : s.plain ∈ changes.scanl PlainSettings.next s₀.plain := by
      rw [← Settings.map_plain_scanl]
      exact List.mem_map_of_mem hs
    have hsound := s₀.plain_sound.of_mem_scanl changes _ hmem
    exact ⟨hsound, hsound.uppered_logLevel⟩
  · exact ⟨Settings.foldl_next_of_foldlM h, Settings.updated_last h⟩

section Example

/-- Changes of the workers, the second with a log level in small letters. -/
def workerChanges : List SettingsChange :=
  [{ workers := some 4, boys := some false }, { workers := some 2, logLevel := some "debug" }]

theorem settings_along_changes_workers :
    ∃ s₁ s : Settings, Settings.standard.updated { workers := some 4, boys := some false } = .ok s₁ ∧
      (s₁.plain.workers = 4 ∧ s₁.plain.lineWidth = defaultWidth) ∧
      workerChanges.foldlM Settings.updated Settings.standard = .ok s ∧
      workerChanges.foldl Settings.next Settings.standard = s ∧
      Settings.standard.updated
        { workers := some 2, boys := some false, logLevel := some "debug" } = .ok s ∧
      (s.workers, s.boys, s.logLevel) = (2, false, .debug) := by
  have hfirst : (Settings.standard.updated
      { workers := some 4, boys := some false }).toOption.map (·.workers) = some 4 := by
    decide +kernel
  have hall : (workerChanges.foldlM Settings.updated Settings.standard).toOption.map
      (fun s => (s.workers, s.boys, s.logLevel)) = some (2, false, .debug) := by
    decide +kernel
  obtain ⟨s₁, hs₁, -⟩ := exists_of_toOption hfirst
  obtain ⟨s, hs, hvalues⟩ := exists_of_toOption hall
  obtain ⟨-, -, heffect, -, hlast⟩ := settings_along_changes Settings.standard workerChanges
  obtain ⟨hfinal, hsingle⟩ := hlast s hs
  have hchange := heffect _ _ _ hs₁
  exact ⟨s₁, s, hs₁, ⟨hchange.workers, hchange.lineWidth⟩, hs, hfinal, hsingle, hvalues⟩

end Example

end GaussianIntegrals
