/-
  Settings written to a file and read back. `PlainSettings.assignments` gives each setting its key
  and its value as text; a row is a key and a value with an equals sign between blanks. The reader
  takes from such a row the key and the value (`content?_row`), whatever signs the value contains:
  the key in front holds no equals sign and begins with no `#`. As every key has one row, the order
  of the rows does not matter (`lastValue_of_perm`), and each value is read as what was written
  (`names_intercalate`, `readInt_of_writeInt`).

  Texts with blanks at their ends or with line ends inside do not come back, so the directories and
  the continuation marker are assumed to have none (`FitsRow`).
-/
import GaussianIntegrals.Proofs.IntegerTexts
import GaussianIntegrals.Proofs.SettingsChanges
import GaussianIntegrals.Proofs.SettingsLayout

namespace GaussianIntegrals

namespace Text

/-! ## Texts without blanks at their ends -/

theorem isBlank_of_isDigit {c : Char} (h : c.isDigit = true) : isBlank c = false := by
  have hc := toNat_of_isDigit h
  simp [isBlank, blankRanges]
  omega

/-- The first and the last character are no blanks. -/
structure IsTight (cs : List Char) : Prop where
  head : ∃ c ∈ cs.head?, isBlank c = false
  last : ∃ c ∈ cs.getLast?, isBlank c = false

theorem IsTight.strip_eq {cs : List Char} (h : IsTight cs) : strip cs = cs := by
  have hkeep : ∀ {ds : List Char}, (∃ c ∈ ds.head?, isBlank c = false) →
      ds.dropWhile isBlank = ds := by
    intro ds ⟨c, hhead, hc⟩
    obtain ⟨ds, rfl⟩ := List.head?_eq_some_iff.1 hhead
    exact List.dropWhile_cons_of_neg (Bool.eq_false_iff.1 hc)
  have hlast := h.last
  rw [← List.head?_reverse] at hlast
  rw [strip, dropBlank, hkeep h.head, dropBlankEnd, hkeep hlast, List.reverse_reverse]

theorem isTight_of_forall {cs : List Char} (hne : cs ≠ []) (h : ∀ c ∈ cs, isBlank c = false) :
    IsTight cs where
  head := ⟨cs.head hne, List.head?_eq_some_head hne, h _ (List.head_mem hne)⟩
  last := ⟨cs.getLast hne, List.getLast?_eq_some_getLast hne, h _ (List.getLast_mem hne)⟩

/-- What stands between does not matter. -/
theorem IsTight.append {as bs : List Char} (ha : IsTight as) (hb : IsTight bs) (cs : List Char) :
    IsTight (as ++ cs ++ bs) := by
  obtain ⟨c, hc, hcblank⟩ := ha.head
  obtain ⟨d, hd, hdblank⟩ := hb.last
  constructor
  · refine ⟨c, ?_, hcblank⟩
    rw [List.append_assoc, List.head?_append, Option.mem_def.1 hc]
    rfl
  · refine ⟨d, ?_, hdblank⟩
    rw [List.getLast?_append, Option.mem_def.1 hd]
    rfl

theorem allBlank_space : AllBlank [' '] := fun c hc => by
  rw [List.mem_singleton.1 hc]
  exact isBlank_space

theorem strip_space_cons (cs : List Char) : strip (' ' :: cs) = strip cs :=
  strip_append_left allBlank_space cs

/-! ## Words with commas between them -/

/-- What holds of words and passes to two texts with a separator between them. -/
theorem intercalate_induction {P : List Char → Prop} {separator : List Char}
    (hjoin : ∀ as bs, P as → P bs → P (as ++ separator ++ bs)) {ws : List (List Char)}
    (hne : ws ≠ []) (h : ∀ w ∈ ws, P w) : P (List.intercalate separator ws) := by
  induction ws with
  | nil => exact absurd rfl hne
  | cons w ws ih =>
    rw [List.forall_mem_cons] at h
    cases ws with
    | nil =>
      rw [List.intercalate_singleton]
      exact h.1
    | cons u us =>
      rw [List.intercalate_cons_cons]
      exact hjoin _ _ h.1 (ih (List.cons_ne_nil u us) h.2)

theorem map_strip_splitAt_space (cs : List Char) :
    (splitAt ',' (' ' :: cs)).map strip = (splitAt ',' cs).map strip := by
  rw [splitAt, if_neg (by decide)]
  cases h : splitAt ',' cs with
  | nil => exact absurd h (splitAt_ne_nil ',' cs)
  | cons part rest => rw [List.map_cons, List.map_cons, strip_space_cons]

/-- Words without commas come back from their list. -/
theorem map_strip_splitAt_intercalate {ws : List (List Char)} (hne : ws ≠ [])
    (h : ∀ w ∈ ws, ',' ∉ w ∧ strip w = w) :
    (splitAt ',' (List.intercalate [',', ' '] ws)).map strip = ws := by
  induction ws with
  | nil => exact absurd rfl hne
  | cons w ws ih =>
    rw [List.forall_mem_cons] at h
    obtain ⟨⟨hcomma, hstrip⟩, hws⟩ := h
    cases ws with
    | nil => rw [List.intercalate_singleton, splitAt_of_notMem hcomma, List.map_singleton, hstrip]
    | cons u us =>
      rw [List.intercalate_cons_cons, List.append_assoc]
      show (splitAt ',' (w ++ ',' :: (' ' :: List.intercalate [',', ' '] (u :: us)))).map strip = _
      rw [splitAt_append_cons, splitAt_of_notMem hcomma, List.map_append, List.map_singleton,
        hstrip, map_strip_splitAt_space, ih (List.cons_ne_nil u us) hws, List.singleton_append]

end Text

/-! ## Settings as rows -/

/-- The text of each setting under its key. -/
def PlainSettings.assignments (p : PlainSettings) :
    Except Text.IntegerError (List (String × String)) := do
  let width ← Text.writeInt p.lineWidth
  let workers ← Text.writeInt p.workers
  .ok [("output_dir", p.outputDir), ("families", ", ".intercalate p.families),
    ("boys", if p.boys then "yes" else "no"), ("line_width", width),
    ("continuation", p.continuation), ("workers", workers), ("log_dir", p.logDir),
    ("log_level", p.logLevel)]

namespace SettingsFile

/-- The row of a key and a value. -/
def row (assigned : String × String) : List Char :=
  assigned.1.toList ++ ' ' :: '=' :: ' ' :: assigned.2.toList

/-- The rows as a text, with a newline behind each. -/
def fileText (rows : List (List Char)) : String := String.ofList (rows.flatMap (· ++ ['\n']))

/-- The text stands on one line and has no blanks at its ends. -/
structure FitsRow (value : String) : Prop where
  stripped : Text.stripped value = value
  oneRow : OneRow value.toList

instance (cs : List Char) : Decidable (OneRow cs) := inferInstanceAs (Decidable (_ ∧ _))

instance (value : String) : Decidable (FitsRow value) :=
  decidable_of_iff (Text.stripped value = value ∧ OneRow value.toList)
    ⟨fun h => ⟨h.1, h.2⟩, fun h => ⟨h.stripped, h.oneRow⟩⟩

theorem FitsRow.strip_eq {value : String} (h : FitsRow value) :
    Text.strip value.toList = value.toList := by
  have hstripped := congrArg String.toList h.stripped
  rwa [Text.stripped, String.toList_ofList] at hstripped

theorem FitsRow.of_isTight {value : String} (h : Text.IsTight value.toList)
    (hrow : OneRow value.toList) : FitsRow value where
  stripped := by rw [Text.stripped, h.strip_eq, String.ofList_toList]
  oneRow := hrow

/-- No blank is in the text, so no line end is. -/
theorem oneRow_of_forall {cs : List Char} (h : ∀ c ∈ cs, Text.isBlank c = false) : OneRow cs :=
  ⟨fun hmem => absurd (h _ hmem) (by decide), fun hmem => absurd (h _ hmem) (by decide)⟩

theorem FitsRow.of_forall {value : String} (hne : value.toList ≠ [])
    (h : ∀ c ∈ value.toList, Text.isBlank c = false) : FitsRow value :=
  .of_isTight (Text.isTight_of_forall hne h) (oneRow_of_forall h)

/-- The reader takes the key and the value from a row. -/
theorem content?_row {key value : String} (hkey : key ∈ keys) (hvalue : FitsRow value) :
    content? (Text.strip (row (key, value))) = some (some (key, value.toList)) := by
  have hkeys : ∀ key ∈ keys, '=' ∉ key.toList ++ [' '] ∧ Text.strip key.toList = key.toList ∧
      key.toList.head? ≠ some '#' ∧ Text.lower key.toList = key.toList := by
    decide +kernel
  obtain ⟨hequals, hstrip, hhash, hlower⟩ := hkeys key hkey
  have hrow : row (key, value) = (key.toList ++ [' ']) ++ '=' :: (' ' :: value.toList) := by
    simp [row]
  rw [hrow, content?_strip_equals hequals, Text.strip_append_right Text.allBlank_space, hstrip,
    if_neg hhash, hlower, String.ofList_toList, Text.strip_space_cons, hvalue.strip_eq]

/-! ## Values -/

/-- The name of a family is a word in small letters. -/
theorem familyName_text (f : FamilyName) : f.text.toList ≠ [] ∧
    (∀ c ∈ f.text.toList, Text.isBlank c = false ∧ c ≠ ',') ∧
    Text.lower f.text.toList = f.text.toList := by
  have hall : f.text.toList.all (fun c => decide (Text.isBlank c = false ∧ c ≠ ',')) = true := by
    cases f <;> decide +kernel
  refine ⟨?_, fun c hc => of_decide_eq_true (List.all_eq_true.1 hall c hc), ?_⟩
  all_goals cases f <;> decide +kernel

theorem forall_mem_familyNames {P : List Char → Prop} (h : ∀ f : FamilyName, P f.text.toList)
    (fs : List FamilyName) : ∀ w ∈ (fs.map FamilyName.text).map String.toList, P w := by
  intro w hw
  simp only [List.mem_map] at hw
  obtain ⟨_, ⟨f, -, rfl⟩, rfl⟩ := hw
  exact h f

theorem names_intercalate (fs : List FamilyName) :
    listedNames (", ".intercalate (fs.map FamilyName.text)).toList = fs.map FamilyName.text := by
  rw [← names_eq_listedNames]
  cases fs with
  | nil => decide
  | cons f fs =>
    have hparts := Text.map_strip_splitAt_intercalate (by simp) <|
      forall_mem_familyNames (P := fun w => ',' ∉ w ∧ Text.strip w = w) (fun f =>
        ⟨fun hcomma => ((familyName_text f).2.1 _ hcomma).2 rfl,
          (Text.isTight_of_forall (familyName_text f).1 fun c hc =>
            ((familyName_text f).2.1 c hc).1).strip_eq⟩) (f :: fs)
    have hne := forall_mem_familyNames (P := fun w => decide (w ≠ []) = true)
      (fun f => decide_eq_true (familyName_text f).1) (f :: fs)
    have hlower := forall_mem_familyNames
      (P := fun w => String.ofList (Text.lower w) = String.ofList w)
      (fun f => congrArg String.ofList (familyName_text f).2.2) (f :: fs)
    have hcomma : ", ".toList = [',', ' '] := rfl
    rw [names, String.toList_intercalate, hcomma, hparts, List.filter_eq_self.2 hne,
      List.map_congr_left hlower, List.map_map]
    simp

theorem fitsRow_intercalate (fs : List FamilyName) :
    FitsRow (", ".intercalate (fs.map FamilyName.text)) := by
  cases fs with
  | nil => decide
  | cons f fs =>
    have htight : Text.IsTight (", ".intercalate ((f :: fs).map FamilyName.text)).toList ∧
        OneRow (", ".intercalate ((f :: fs).map FamilyName.text)).toList := by
      rw [String.toList_intercalate]
      refine Text.intercalate_induction (P := fun cs => Text.IsTight cs ∧ OneRow cs)
        (fun as bs ha hb => ⟨ha.1.append hb.1 _, ?_⟩) (by simp)
        (forall_mem_familyNames (fun f => ?_) (f :: fs))
      · obtain ⟨⟨hna, hra⟩, hnb, hrb⟩ := And.intro ha.2 hb.2
        simp [OneRow, hna, hra, hnb, hrb]
      · have hblank : ∀ c ∈ f.text.toList, Text.isBlank c = false := fun c hc =>
          ((familyName_text f).2.1 c hc).1
        exact ⟨Text.isTight_of_forall (familyName_text f).1 hblank, oneRow_of_forall hblank⟩
    exact .of_isTight htight.1 htight.2

/-- A number that can be written is read back; its text fits a row. -/
theorem readInt_of_writeInt {v : ℤ} (hv : 0 ≤ v) {t : String} (h : Text.writeInt v = .ok t) :
    Text.readInt t = .ok v ∧ FitsRow t := by
  obtain ⟨hwritable, rfl⟩ := (Text.writes_writeInt v).eq_ok_iff.1 h
  have htext : toString v = toString v.natAbs := by
    rw [← String.toList_inj, Code.toList_intText, if_neg (not_lt.2 hv), Text.toList_toString_nat]
  rw [htext]
  refine ⟨Text.readInt_toString_eq_ok_iff.2
    ⟨hwritable.natAbs_lt, (Int.natAbs_of_nonneg hv).symm⟩, ?_⟩
  refine .of_forall ?_ fun c hc => Text.isBlank_of_isDigit (Text.isDigit_toString_nat v.natAbs c hc)
  rw [Text.toList_toString_nat]
  exact Nat.toDigits_ne_nil

/-! ## Rows in any order -/

/-- In a table without repeated keys a key has one value. -/
theorem filterMap_of_nodup {α β : Type} [DecidableEq α] {as : List (α × β)}
    (h : (as.map Prod.fst).Nodup) {a : α} {b : β} (hmem : (a, b) ∈ as) :
    as.filterMap (fun x => if x.1 = a then some x.2 else none) = [b] := by
  induction as with
  | nil => exact absurd hmem List.not_mem_nil
  | cons x as ih =>
    rw [List.map_cons, List.nodup_cons] at h
    by_cases hx : x.1 = a
    · have hnone : as.filterMap (fun x => if x.1 = a then some x.2 else none) = [] := by
        refine List.filterMap_eq_nil_iff.2 fun y hy => if_neg fun hya => h.1 ?_
        rw [hx, ← hya]
        exact List.mem_map_of_mem hy
      have hvalue : x = (a, b) := by
        refine ((List.mem_cons.1 hmem).resolve_right fun hmem => h.1 ?_).symm
        rw [hx]
        exact List.mem_map_of_mem hmem
      simp [hvalue, hnone]
    · have hrest : (a, b) ∈ as := by
        refine (List.mem_cons.1 hmem).resolve_left fun heq => hx ?_
        rw [← heq]
      simp [hx, ih h.2 hrest]

section

variable {lines : List (List Char)} {assigned : List (String × List Char)}
  (h : (lines.filterMap content?).Perm (assigned.map some))

include h

theorem acceptable_of_perm (haccepts : ∀ a ∈ assigned, Accepts a.1 a.2) :
    ∀ line ∈ lines, Acceptable line := by
  intro line hline
  rw [acceptable_iff]
  intro content hcontent
  have hmem := h.mem_iff.1 (List.mem_filterMap.2 ⟨line, hline, hcontent⟩)
  obtain ⟨a, ha, rfl⟩ := List.mem_map.1 hmem
  exact ⟨a.1, a.2, rfl, haccepts a ha⟩

/-- Where every key is set once, its value is the last one, whatever the order. -/
theorem lastValue_of_perm (hkeys : (assigned.map Prod.fst).Nodup) {key : String}
    {value : List Char} (hmem : (key, value) ∈ assigned) : lastValue lines key = some value := by
  have hvalues : (lines.filterMap (valueOf key)).Perm [value] := by
    have hset := h.filterMap fun content =>
      content.bind fun setting => if setting.1 = key then some setting.2 else none
    rw [List.filterMap_filterMap, List.filterMap_map] at hset
    have hone := filterMap_of_nodup hkeys hmem
    simp only [valueOf_eq]
    exact hset.trans (.of_eq hone)
  rw [lastValue, List.perm_singleton.1 hvalues]
  rfl

end

theorem truth?_yesNo (b : Bool) : truth? (if b then "yes" else "no").toList = some b := by
  cases b <;> decide

theorem Accepts.of_text {key : String} {value : List Char}
    (h : key ∈ ["output_dir", "families", "continuation", "log_dir", "log_level"]) :
    Accepts key value := by
  have hkeys : ∀ key ∈ ["output_dir", "families", "continuation", "log_dir", "log_level"],
      key ∈ keys ∧ key ≠ "boys" ∧ key ≠ "line_width" ∧ key ≠ "workers" := by
    decide
  obtain ⟨hknown, hboys, hwidth, hworkers⟩ := hkeys key h
  exact ⟨hknown, fun heq => absurd heq hboys, fun heq => absurd heq (not_or.2 ⟨hwidth, hworkers⟩)⟩

theorem Accepts.of_boolean {value : List Char} {b : Bool} (h : truth? value = some b) :
    Accepts "boys" value :=
  ⟨by decide, fun _ => ⟨b, h⟩, fun heq => absurd heq (by decide)⟩

theorem Accepts.of_integer {key : String} {value : List Char} {n : ℤ}
    (hkey : key = "line_width" ∨ key = "workers")
    (h : Text.readInt (String.ofList value) = .ok n) :
    Accepts key value := by
  refine ⟨?_, fun heq => ?_, fun _ => ⟨n, h⟩⟩
  · rcases hkey with rfl | rfl <;> decide
  · rw [heq] at hkey
    exact absurd hkey (by decide)

/-- There is one row for each setting. -/
theorem keys_of_assignments {p : PlainSettings} {assigned : List (String × String)}
    (h : p.assignments = .ok assigned) : assigned.map Prod.fst = keys := by
  obtain ⟨width, -, h⟩ := bind_eq_ok.1 h
  obtain ⟨workers, -, h⟩ := bind_eq_ok.1 h
  cases h
  rfl

/-- The settings of a text whose rows set each setting to its value. -/
theorem read_of_perm {text : String} {s : Settings} {assigned : List (String × String)}
    (hassigned : s.plain.assignments = .ok assigned)
    (h : ((lines text).filterMap content?).Perm
      ((assigned.map fun a => (a.1, a.2.toList)).map some)) : read text = .ok s := by
  have hlast : ∀ a ∈ assigned, lastValue (lines text) a.1 = some a.2.toList := by
    intro a ha
    refine lastValue_of_perm h ?_ (List.mem_map_of_mem ha)
    rw [List.map_map]
    show (assigned.map Prod.fst).Nodup
    rw [keys_of_assignments hassigned]
    decide
  have hacceptable := acceptable_of_perm h
  obtain ⟨width, hwidth, hassigned⟩ := bind_eq_ok.1 hassigned
  obtain ⟨workers, hworkers, hassigned⟩ := bind_eq_ok.1 hassigned
  cases hassigned
  replace hwidth := (readInt_of_writeInt s.lineWidth_pos.le hwidth).1
  replace hworkers := (readInt_of_writeInt s.workers_pos.le hworkers).1
  have hboys := truth?_yesNo s.plain.boys
  have hfamilies : listedNames (", ".intercalate s.plain.families).toList = s.plain.families :=
    names_intercalate s.families
  refine read_eq_ok_iff.2 ⟨hacceptable ?_, ?_⟩
  · simp only [List.map_cons, List.map_nil, List.forall_mem_cons]
    exact ⟨.of_text (by decide), .of_text (by decide), .of_boolean hboys,
      .of_integer (.inl rfl) (by rwa [String.ofList_toList]), .of_text (by decide),
      .of_integer (.inr rfl) (by rwa [String.ofList_toList]),
      .of_text (by decide), .of_text (by decide), by simp⟩
  · simp only [List.forall_mem_cons] at hlast
    obtain ⟨hdir, hnames, hyes, hwide, hmarker, hcount, hlogs, hlevel, -⟩ := hlast
    have hplain : s.plain = valuesOf (lines text) := by
      unfold valuesOf lastChange
      rw [hdir, hnames, hyes, hwide, hmarker, hcount, hlogs, hlevel]
      simp only [Option.map_some, Option.bind_some, String.ofList_toList, hfamilies, hboys, hwidth,
        hworkers]
      ext1
      case logLevel => exact s.plain_sound.uppered_logLevel.symm
      all_goals rfl
    exact ⟨hplain ▸ s.plain_sound, hplain⟩

/-- What rows of a text, behind the last of them an empty one or none, say. -/
theorem filterMap_content?_lines {rows : List (List Char)} {text : String}
    (h : Written rows text.toList ∨ Written (rows ++ [[]]) text.toList) :
    (lines text).filterMap content? = (rows.map Text.strip).filterMap content? := by
  rcases h with h | h
  · exact h.contents_eq
  · have hempty : content? (Text.strip []) = none := rfl
    have hcontents : (lines text).filterMap content? =
        ((rows ++ [[]]).map Text.strip).filterMap content? := h.contents_eq
    rw [hcontents, List.map_append, List.filterMap_append, List.map_singleton,
      List.filterMap_cons_none hempty, List.filterMap_nil, List.append_nil]

theorem written_fileText {rows : List (List Char)} (h : ∀ row ∈ rows, OneRow row) :
    Written (rows ++ [[]]) (fileText rows).toList := by
  rw [fileText, String.toList_ofList]
  induction rows with
  | nil => exact .last ⟨List.not_mem_nil, List.not_mem_nil⟩
  | cons row rows ih =>
    rw [List.forall_mem_cons] at h
    exact .row h.1 .newline (ih h.2)

theorem oneRow_row {key value : String} (hkey : key ∈ keys) (hvalue : FitsRow value) :
    OneRow (row (key, value)) := by
  have hkeys : ∀ key ∈ keys, '\n' ∉ key.toList ∧ '\r' ∉ key.toList := by decide +kernel
  obtain ⟨hnewline, hreturn⟩ := hkeys key hkey
  obtain ⟨hnewline', hreturn'⟩ := hvalue.oneRow
  simp [row, OneRow, hnewline, hreturn, hnewline', hreturn']

end SettingsFile

open SettingsFile

/-- All values that are written for settings fit a row if the directories and the marker do. -/
theorem fitsRow_of_assignments {s : Settings} (hdir : FitsRow s.outputDir)
    (hmarker : FitsRow s.continuation) (hlogs : FitsRow s.logDir)
    {assigned : List (String × String)} (h : s.plain.assignments = .ok assigned) :
    ∀ a ∈ assigned, FitsRow a.2 := by
  obtain ⟨width, hwidth, h⟩ := bind_eq_ok.1 h
  obtain ⟨workers, hworkers, h⟩ := bind_eq_ok.1 h
  cases h
  have hyesNo : ∀ b : Bool, FitsRow (if b then "yes" else "no") := by
    intro b
    cases b <;> decide
  have hlevel : ∀ l : LogLevel, FitsRow l.text := by
    intro l
    cases l <;> decide
  simp only [List.forall_mem_cons]
  exact ⟨hdir, fitsRow_intercalate s.families, hyesNo s.boys,
    (readInt_of_writeInt s.lineWidth_pos.le hwidth).2, hmarker,
    (readInt_of_writeInt s.workers_pos.le hworkers).2, hlogs, hlevel s.logLevel, by simp⟩

/-- **Settings can be written to a file and read back.** If the directories and the continuation
marker have no blanks at their ends and no line ends inside, and the integers have no more digits
than are written, then each setting has a row, `key = value`, and a text of these rows in any order
is accepted and describes exactly these settings. The rows may end in any way, and the last one need
not end at all. A value may contain equals signs, `#` and commas or be empty, and there may be no
family. -/
theorem written_settings_are_read {s : Settings} (hdir : FitsRow s.outputDir)
    (hmarker : FitsRow s.continuation) (hlogs : FitsRow s.logDir)
    (hwidth : s.lineWidth < 10 ^ Text.digitLimit) (hworkers : s.workers < 10 ^ Text.digitLimit) :
    ∃ assigned, s.plain.assignments = .ok assigned ∧ assigned.map Prod.fst = keys ∧
      ∀ rows, rows.Perm (assigned.map row) → read (fileText rows) = .ok s ∧
        ∀ text : String, Written rows text.toList ∨ Written (rows ++ [[]]) text.toList →
          read text = .ok s := by
  obtain ⟨assigned, hassigned⟩ : ∃ assigned, s.plain.assignments = .ok assigned := by
    have hwritten : ∀ v : ℤ, 0 < v → v < 10 ^ Text.digitLimit →
        Text.writeInt v = .ok (toString v) := by
      intro v hv hlt
      refine (Text.writes_writeInt v).eq_ok ⟨?_⟩
      rw [← Int.ofNat_lt, Int.natAbs_of_nonneg hv.le]
      exact_mod_cast hlt
    exact ⟨_, bind_eq_ok.2 ⟨_, hwritten _ s.lineWidth_pos hwidth,
      bind_eq_ok.2 ⟨_, hwritten _ s.workers_pos hworkers, rfl⟩⟩⟩
  have hkeys := keys_of_assignments hassigned
  have hfits := fitsRow_of_assignments hdir hmarker hlogs hassigned
  have hkey : ∀ a ∈ assigned, a.1 ∈ keys := fun a ha => hkeys ▸ List.mem_map_of_mem ha
  refine ⟨assigned, hassigned, hkeys, fun rows hrows => ?_⟩
  have hread : ∀ text : String, Written rows text.toList ∨ Written (rows ++ [[]]) text.toList →
      read text = .ok s := by
    intro text hwritten
    refine read_of_perm hassigned ?_
    have hcontent := (hrows.map Text.strip).filterMap content?
    rw [← filterMap_content?_lines hwritten, List.map_map, List.filterMap_map] at hcontent
    refine hcontent.trans (.of_eq ?_)
    rw [List.map_map, ← List.filterMap_eq_map]
    exact List.filterMap_congr fun a ha => content?_row (hkey a ha) (hfits a ha)
  have hone : ∀ r ∈ rows, OneRow r := by
    intro r hr
    obtain ⟨a, ha, rfl⟩ := List.mem_map.1 (hrows.mem_iff.1 hr)
    exact oneRow_row (hkey a ha) (hfits a ha)
  exact ⟨hread _ (.inr (written_fileText hone)), hread⟩

section Example

/-- Settings with values that look like parts of a settings file. -/
def awkwardSettings : Settings where
  outputDir := "a=b, #c"
  families := []
  boys := false
  lineWidth := 79
  continuation := "#"
  workers := 12
  logDir := ""
  logLevel := .debug
  lineWidth_pos := by decide
  workers_pos := by decide

/-- Their rows in another order. -/
def awkwardRows : List (List Char) :=
  [("workers", "12"), ("log_dir", ""), ("continuation", "#"), ("output_dir", "a=b, #c"),
    ("families", ""), ("boys", "no"), ("log_level", "DEBUG"), ("line_width", "79")].map row

/-- The text of these rows. -/
def awkwardText : String :=
  "workers = 12\nlog_dir = \ncontinuation = #\noutput_dir = a=b, #c\nfamilies = \n" ++
    "boys = no\nlog_level = DEBUG\nline_width = 79\n"

theorem written_settings_are_read_awkward :
    FitsRow awkwardSettings.outputDir ∧ FitsRow awkwardSettings.continuation ∧
      FitsRow awkwardSettings.logDir ∧ awkwardSettings.lineWidth < 10 ^ Text.digitLimit ∧
      awkwardSettings.workers < 10 ^ Text.digitLimit ∧
      read awkwardText = .ok awkwardSettings := by
  have hdir : FitsRow awkwardSettings.outputDir := by decide +kernel
  have hmarker : FitsRow awkwardSettings.continuation := by decide +kernel
  have hlogs : FitsRow awkwardSettings.logDir := by decide +kernel
  have hlimit : ∀ n, 2 ≤ n → ∀ v : ℤ, v < 10 ^ 2 → v < 10 ^ n := fun n hn v hv =>
    hv.trans_le (pow_le_pow_right₀ (by decide : (1 : ℤ) ≤ 10) hn)
  have hwidth := hlimit Text.digitLimit (by decide) awkwardSettings.lineWidth (by decide)
  have hworkers := hlimit Text.digitLimit (by decide) awkwardSettings.workers (by decide)
  obtain ⟨assigned, hassigned, -, hread⟩ :=
    written_settings_are_read hdir hmarker hlogs hwidth hworkers
  have hrows : awkwardSettings.plain.assignments = .ok [("output_dir", "a=b, #c"), ("families", ""),
      ("boys", "no"), ("line_width", "79"), ("continuation", "#"), ("workers", "12"),
      ("log_dir", ""), ("log_level", "DEBUG")] := by
    decide +kernel
  obtain rfl := Except.ok.inj (hassigned.symm.trans hrows)
  have htext : fileText awkwardRows = awkwardText := by decide +kernel
  have horder : awkwardRows.Perm ([("output_dir", "a=b, #c"), ("families", ""), ("boys", "no"),
      ("line_width", "79"), ("continuation", "#"), ("workers", "12"), ("log_dir", ""),
      ("log_level", "DEBUG")].map row) := by
    decide +kernel
  rw [← htext]
  exact ⟨hdir, hmarker, hlogs, hwidth, hworkers, (hread awkwardRows horder).1⟩

end Example

end GaussianIntegrals
