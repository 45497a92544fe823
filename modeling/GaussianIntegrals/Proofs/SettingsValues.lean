/-
  What a settings file says. A line is accepted or refused on its own, whatever stands in front of
  it (`exists_readLine_eq_ok_iff`), and the last value of each key counts (`eq_lastChange`). So a
  text is accepted if and only if its lines are and the last values are sound (`read_eq_ok_iff`).

  What a value says is stated apart from the reader: a list of names by its commas
  (`listedNames`), a yes or no by its words (`truth?`).
-/
import GaussianIntegrals.Proofs.SettingsChanges

namespace GaussianIntegrals

attribute [ext] SettingsChange

/-- Steps that are accepted or not whatever the state, one after another. -/
theorem exists_foldlM_eq_ok_iff {σ α ε : Type} {f : σ → α → Except ε σ} {P : α → Prop}
    (h : ∀ s a, (∃ s', f s a = .ok s') ↔ P a) {as : List α} {s : σ} :
    (∃ s', as.foldlM f s = .ok s') ↔ ∀ a ∈ as, P a := by
  induction as generalizing s with
  | nil => exact ⟨fun _ _ hmem => absurd hmem List.not_mem_nil, fun _ => ⟨s, rfl⟩⟩
  | cons a as ih =>
    rw [List.forall_mem_cons, ← h s a]
    simp only [List.foldlM_cons, bind_eq_ok]
    constructor
    · rintro ⟨s', s₁, hfirst, hrest⟩
      exact ⟨⟨s₁, hfirst⟩, ih.1 ⟨s', hrest⟩⟩
    · rintro ⟨⟨s₁, hfirst⟩, hrest⟩
      obtain ⟨s', hs'⟩ := ih.2 hrest
      exact ⟨s', s₁, hfirst, hs'⟩

namespace SettingsFile

/-! ## Values of lists and of words -/

/-- The names that a value lists: what stands between its commas without the blanks around it, in
lower case; where nothing is left there is no name. -/
def listedNames (value : List Char) : List String :=
  (value.splitOn ',').filterMap fun part =>
    if Text.strip part = [] then none else some (String.ofList (Text.lower (Text.strip part)))

theorem splitAt_eq_splitOn (separator : Char) (cs : List Char) :
    Text.splitAt separator cs = cs.splitOn separator := by
  induction cs with
  | nil => rfl
  | cons c cs ih =>
    rw [List.splitOn] at ih ⊢
    rw [Text.splitAt, List.splitOnP_cons_eq_if_modifyHead, ← ih]
    by_cases hc : c = separator
    · simp [hc]
    · cases hparts : Text.splitAt separator cs with
      | nil => exact absurd hparts (Text.splitAt_ne_nil separator cs)
      | cons part rest => simp [hc]

theorem names_eq_listedNames (value : List Char) : names value = listedNames value := by
  rw [names, listedNames, ← splitAt_eq_splitOn]
  induction Text.splitAt ',' value with
  | nil => rfl
  | cons part parts ih =>
    by_cases hpart : Text.strip part = []
    · simp [hpart, ← ih]
    · simp [hpart, ← ih]

example : listedNames " Nuclear, ,KINETIC".toList = ["nuclear", "kinetic"] := by decide +kernel

/-- The words for yes and no, in any case. -/
def truth? (value : List Char) : Option Bool :=
  if String.ofList (Text.lower value) ∈ ["true", "yes", "on", "1"] then some true
  else if String.ofList (Text.lower value) ∈ ["false", "no", "off", "0"] then some false
  else none

theorem toOption_boolean (value : List Char) : (boolean value).toOption = truth? value := by
  simp only [boolean, truth?, List.contains_iff_mem]
  split
  · rfl
  · split <;> rfl

theorem exists_boolean_eq_ok_iff {value : List Char} :
    (∃ b, boolean value = .ok b) ↔ ∃ b, truth? value = some b := by
  simp only [← toOption_boolean]
  cases boolean value <;> simp [Except.toOption]

theorem toOption_integer (value : List Char) :
    (integer value).toOption = (Text.readInt (String.ofList value)).toOption := by
  rw [integer]
  cases Text.readInt (String.ofList value) <;> rfl

theorem exists_integer_eq_ok_iff {value : List Char} :
    (∃ n, integer value = .ok n) ↔ ∃ n, Text.readInt (String.ofList value) = .ok n := by
  simp only [integer, mapError_eq_ok]

/-! ## Lines -/

/-- The keys of settings. -/
def keys : List String :=
  ["output_dir", "families", "boys", "line_width", "continuation", "workers", "log_dir",
    "log_level"]

/-- The key is one of a setting, and the value can be read where the setting is a yes or no or an
integer. -/
structure Accepts (key : String) (value : List Char) : Prop where
  known : key ∈ keys
  boolean : key = "boys" → ∃ b, truth? value = some b
  integer : key = "line_width" ∨ key = "workers" →
    ∃ n, Text.readInt (String.ofList value) = .ok n

/-- The line sets nothing, or it has an equals sign, with the key of a setting in front and a value
that this setting accepts behind. -/
def Acceptable (line : List Char) : Prop :=
  Silent line ∨ ∃ key value, setting? line = some (key, value) ∧ Accepts key value

theorem exists_set_eq_ok_iff {c : SettingsChange} {key : String} {value : List Char} :
    (∃ c', set c key value = .ok c') ↔ Accepts key value := by
  unfold set
  split
  case h_3 =>
    constructor
    · rintro ⟨c', h⟩
      obtain ⟨b, hb, -⟩ := bind_eq_ok.1 h
      exact ⟨by decide, fun _ => exists_boolean_eq_ok_iff.1 ⟨b, hb⟩,
        fun h => absurd h (by decide)⟩
    · intro h
      obtain ⟨b, hb⟩ := exists_boolean_eq_ok_iff.2 (h.boolean rfl)
      exact ⟨_, bind_eq_ok.2 ⟨b, hb, rfl⟩⟩
  case h_4 | h_6 =>
    constructor
    · rintro ⟨c', h⟩
      obtain ⟨n, hn, -⟩ := bind_eq_ok.1 h
      exact ⟨by decide, fun h => absurd h (by decide),
        fun _ => exists_integer_eq_ok_iff.1 ⟨n, hn⟩⟩
    · intro h
      obtain ⟨n, hn⟩ := exists_integer_eq_ok_iff.2 (h.integer (by decide))
      exact ⟨_, bind_eq_ok.2 ⟨n, hn, rfl⟩⟩
  case h_9 =>
    refine ⟨fun ⟨c', h⟩ => (by cases h), fun h => ?_⟩
    have hknown := h.known
    simp_all [keys]
  -- every other value is taken as it stands
  all_goals
    exact ⟨fun _ => ⟨by decide, fun h => absurd h (by decide), fun h => absurd h (by decide)⟩,
      fun _ => ⟨_, rfl⟩⟩

theorem exists_readLine_eq_ok_iff {c : SettingsChange} {line : List Char} :
    (∃ c', readLine c line = .ok c') ↔ Acceptable line := by
  unfold readLine Acceptable
  by_cases hsilent : Silent line
  · rw [if_pos (isSilent_iff.2 hsilent)]
    exact ⟨fun _ => .inl hsilent, fun _ => ⟨c, rfl⟩⟩
  · rw [if_neg (mt isSilent_iff.1 hsilent), setting?,
      if_neg fun hcomment => hsilent (.inr hcomment)]
    cases line.dropWhile (· != '=') with
    | nil => simp [hsilent]
    | cons sign value =>
      rw [exists_set_eq_ok_iff]
      simp [hsilent]

/-! ## The last values -/

/-- The value that a line sets for a key. -/
def valueOf (key : String) (line : List Char) : Option (List Char) :=
  (setting? line).bind fun setting => if setting.1 = key then some setting.2 else none

/-- The last value that lines set for a key. -/
def lastValue (lines : List (List Char)) (key : String) : Option (List Char) :=
  (lines.filterMap (valueOf key)).getLast?

/-- The change by the last value of each key. -/
def lastChange (lines : List (List Char)) : SettingsChange where
  outputDir := (lastValue lines "output_dir").map String.ofList
  families := (lastValue lines "families").map listedNames
  boys := (lastValue lines "boys").bind truth?
  lineWidth := (lastValue lines "line_width").bind fun value =>
    (Text.readInt (String.ofList value)).toOption
  continuation := (lastValue lines "continuation").map String.ofList
  workers := (lastValue lines "workers").bind fun value =>
    (Text.readInt (String.ofList value)).toOption
  logDir := (lastValue lines "log_dir").map String.ofList
  logLevel := (lastValue lines "log_level").map String.ofList

/-- A field that takes the values of one key holds the last of them. -/
theorem eq_bind_lastValue {β : Type} {key : String} {field : SettingsChange → Option β}
    {interpret : List Char → Option β}
    (hfield : ∀ c key' value, field (record c key' value) =
      if key' = key then interpret value else field c)
    (hnone : field {} = none) {lines : List (List Char)} {c : SettingsChange}
    (h : lines.foldlM readLine {} = .ok c) : field c = (lastValue lines key).bind interpret := by
  have hstep : ∀ c line c', readLine c line = .ok c' →
      field c' = ((valueOf key line).map interpret).getD (field c) := by
    intro c line c' hline
    obtain ⟨hsetting, rfl⟩ | ⟨key', value, hsetting, hset⟩ := readLine_eq_ok hline
    · rw [valueOf, hsetting]
      rfl
    · rw [set_eq_record hset, hfield, valueOf, hsetting, Option.bind_some]
      split
      · rfl
      · rfl
  rw [eq_last_of_foldlM hstep h, hnone, lastValue, ← List.map_filterMap, List.getLast?_map]
  cases (lines.filterMap (valueOf key)).getLast? <;> rfl

theorem eq_map_lastValue {β : Type} {key : String} {field : SettingsChange → Option β}
    {interpret : List Char → β}
    (hfield : ∀ c key' value, field (record c key' value) =
      if key' = key then some (interpret value) else field c)
    (hnone : field {} = none) {lines : List (List Char)} {c : SettingsChange}
    (h : lines.foldlM readLine {} = .ok c) : field c = (lastValue lines key).map interpret := by
  rw [eq_bind_lastValue hfield hnone h]
  cases lastValue lines key <;> rfl

/-- Lines that are read give the last value of each key. -/
theorem eq_lastChange {lines : List (List Char)} {c : SettingsChange}
    (h : lines.foldlM readLine {} = .ok c) : c = lastChange lines := by
  ext1
  case families =>
    exact eq_map_lastValue (fun _ _ value => by rw [record, names_eq_listedNames]) rfl h
  case boys => exact eq_bind_lastValue (fun _ _ value => by rw [record, toOption_boolean]) rfl h
  case lineWidth | workers =>
    exact eq_bind_lastValue (fun _ _ value => by rw [record, toOption_integer]) rfl h
  all_goals exact eq_map_lastValue (fun _ _ _ => rfl) rfl h

theorem exists_readLines_eq_ok_iff {c : SettingsChange} {lines : List (List Char)} :
    (∃ c', lines.foldlM readLine c = .ok c') ↔ ∀ line ∈ lines, Acceptable line :=
  exists_foldlM_eq_ok_iff (f := readLine) fun _ _ => exists_readLine_eq_ok_iff

/-- The values that lines give to all settings, the last of each key over the defaults. -/
def valuesOf (lines : List (List Char)) : PlainSettings :=
  Settings.standard.plain.merge (lastChange lines)

/-- A text is read if and only if all its lines are accepted and the values that they give are
sound; these are the values of the settings that it describes. -/
theorem read_eq_ok_iff {text : String} {s : Settings} :
    read text = .ok s ↔ (∀ line ∈ lines text, Acceptable line) ∧
      (valuesOf (lines text)).Sound ∧ s.plain = valuesOf (lines text) := by
  rw [read, bind_eq_ok, ← exists_readLines_eq_ok_iff]
  simp only [mapError_eq_ok, Settings.ofChange, Settings.updated_eq_ok_iff, valuesOf]
  constructor
  · rintro ⟨c, hc, hs⟩
    rw [← eq_lastChange hc]
    exact ⟨⟨c, hc⟩, hs⟩
  · rintro ⟨⟨c, hc⟩, hs⟩
    rw [← eq_lastChange hc] at hs
    exact ⟨c, hc, hs⟩

end SettingsFile

end GaussianIntegrals
