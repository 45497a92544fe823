/-
  The layout of a settings file does not matter. What a row says to the reader is silence, a key
  with its value, or something that is no setting (`content?`). Blanks at its ends, blanks around
  its first equals sign and the case of ASCII letters in front of it do not change that
  (`Respelt.content?_eq`). Neither silent rows nor the order of rows with different keys change the
  last values (`Relaid.agree`), and rows may end in any way (`Written.agree`).
-/
import GaussianIntegrals.Proofs.LetterCase
import GaussianIntegrals.Proofs.SettingsValues
import GaussianIntegrals.Proofs.StrippedTexts

namespace GaussianIntegrals

theorem toOption_eq_some_iff {ε α : Type} {x : Except ε α} {a : α} :
    x.toOption = some a ↔ x = .ok a := by
  cases x <;> simp [Except.toOption]

namespace SettingsFile

/-! ## What a row says -/

/-- What a line says to the reader: nothing, or something that may be a setting. -/
def content? (line : List Char) : Option (Option (String × List Char)) :=
  if Silent line then none else some (setting? line)

theorem acceptable_iff {line : List Char} : Acceptable line ↔
    ∀ content ∈ content? line, ∃ key value, content = some (key, value) ∧ Accepts key value := by
  unfold Acceptable content?
  by_cases h : Silent line
  · simp [h]
  · simp [h]

theorem valueOf_eq (key : String) (line : List Char) : valueOf key line =
    (content? line).bind fun content =>
      content.bind fun setting => if setting.1 = key then some setting.2 else none := by
  unfold valueOf content?
  by_cases h : Silent line
  · simp [h, setting?_of_silent h]
  · simp [h]

/-- A row with an equals sign, by what stands on the two sides of the first one. -/
theorem content?_strip_equals {k : List Char} (hk : '=' ∉ k) (v : List Char) :
    content? (Text.strip (k ++ '=' :: v)) =
      if (Text.strip k).head? = some '#' then none
      else some (some (String.ofList (Text.lower (Text.strip k)), Text.strip v)) := by
  have hequals : Text.isBlank '=' = false := by decide
  have hcomment : (Text.dropBlank k ++ '=' :: Text.dropBlankEnd v).head? = some '#' ↔
      (Text.strip k).head? = some '#' := by
    rw [Text.head?_strip]
    cases Text.dropBlank k with
    | nil => simp
    | cons c cs => simp
  have hsilent : Silent (Text.dropBlank k ++ '=' :: Text.dropBlankEnd v) ↔
      (Text.strip k).head? = some '#' := (or_iff_right (by simp)).trans hcomment
  have hkey : ∀ c ∈ Text.dropBlank k, (c != '=') = true := by
    intro c hc
    rw [bne_iff_ne]
    rintro rfl
    exact hk ((List.dropWhile_suffix _).subset hc)
  rw [Text.strip_append_cons hequals, content?]
  by_cases h : (Text.strip k).head? = some '#'
  · rw [if_pos h, if_pos (hsilent.2 h)]
  · rw [if_neg h, if_neg (mt hsilent.1 h), setting?, if_neg (mt hcomment.1 h),
      List.dropWhile_append_of_pos hkey, List.takeWhile_append_of_pos hkey]
    simp [Text.strip_dropBlank, Text.strip_dropBlankEnd]

/-- Two lists of lines that are accepted together and have the same last values. -/
structure Agree (lines lines' : List (List Char)) : Prop where
  acceptable : (∀ line ∈ lines, Acceptable line) ↔ ∀ line ∈ lines', Acceptable line
  lastValue : ∀ key, lastValue lines key = lastValue lines' key

theorem Agree.symm {lines lines' : List (List Char)} (h : Agree lines lines') :
    Agree lines' lines :=
  ⟨h.acceptable.symm, fun key => (h.lastValue key).symm⟩

theorem Agree.trans {lines lines' lines'' : List (List Char)} (h : Agree lines lines')
    (h' : Agree lines' lines'') : Agree lines lines'' :=
  ⟨h.acceptable.trans h'.acceptable, fun key => (h.lastValue key).trans (h'.lastValue key)⟩

/-- Lines that say the same. -/
theorem Agree.of_content {lines lines' : List (List Char)}
    (h : lines.filterMap content? = lines'.filterMap content?) : Agree lines lines' where
  acceptable := by
    have hiff : ∀ ls : List (List Char), (∀ line ∈ ls, Acceptable line) ↔
        ∀ content ∈ ls.filterMap content?, ∃ key value,
          content = some (key, value) ∧ Accepts key value := by
      intro ls
      simp only [acceptable_iff, List.mem_filterMap, Option.mem_def]
      exact ⟨fun h content ⟨line, hline, hcontent⟩ => h line hline content hcontent,
        fun h line hline content hcontent => h content ⟨line, hline, hcontent⟩⟩
    rw [hiff, hiff, h]
  lastValue := by
    intro key
    have hvalue : ∀ ls : List (List Char), ls.filterMap (valueOf key) =
        (ls.filterMap content?).filterMap fun content =>
          content.bind fun setting => if setting.1 = key then some setting.2 else none := by
      intro ls
      rw [List.filterMap_filterMap]
      exact List.filterMap_congr fun line _ => valueOf_eq key line
    rw [SettingsFile.lastValue, SettingsFile.lastValue, hvalue, hvalue, h]

theorem Agree.valuesOf_eq {lines lines' : List (List Char)} (h : Agree lines lines') :
    valuesOf lines = valuesOf lines' := by
  simp only [valuesOf, lastChange, h.lastValue]

theorem Agree.read_eq {text text' : String} (h : Agree (lines text) (lines text')) :
    (read text).toOption = (read text').toOption := by
  have hiff : ∀ s, read text = .ok s ↔ read text' = .ok s := fun s => by
    rw [read_eq_ok_iff, read_eq_ok_iff, h.acceptable, h.valuesOf_eq]
  refine Option.ext fun s => ?_
  rw [toOption_eq_some_iff, toOption_eq_some_iff, hiff]

/-! ## Changes of the layout -/

/-- A row in another spelling. -/
inductive Respelt : List Char → List Char → Prop where
  /-- The ASCII letters of the key are in another case. -/
  | key {k k' : List Char} (hk : '=' ∉ k) (h : Text.SameLetters k k') (v : List Char) :
    Respelt (k ++ '=' :: v) (k' ++ '=' :: v)
  /-- There are more blanks at the ends. -/
  | ends {w w' : List Char} (hw : Text.AllBlank w) (hw' : Text.AllBlank w') (row : List Char) :
    Respelt row (w ++ row ++ w')
  /-- There are more blanks around the first equals sign. -/
  | equals {k w w' : List Char} (hk : '=' ∉ k) (hw : Text.AllBlank w) (hw' : Text.AllBlank w')
    (v : List Char) : Respelt (k ++ '=' :: v) (k ++ w ++ '=' :: (w' ++ v))

/-- The row sets the key. -/
def setsKey (key : String) (row : List Char) : Bool := (valueOf key (Text.strip row)).isSome

/-- Rows in another layout. -/
inductive Relaid : List (List Char) → List (List Char) → Prop where
  /-- A blank row or a comment is inserted. -/
  | silent {row : List Char} (h : Silent (Text.strip row))
    (above below : List (List Char)) : Relaid (above ++ below) (above ++ row :: below)
  | respelt {row row' : List Char} (h : Respelt row row') (above below : List (List Char)) :
    Relaid (above ++ row :: below) (above ++ row' :: below)
  /-- The rows are in another order, those of each key among themselves in the same. -/
  | reordered {rows rows' : List (List Char)} (h : rows.Perm rows')
    (hkeys : ∀ key, rows.filter (setsKey key) = rows'.filter (setsKey key)) : Relaid rows rows'
  | symm {rows rows' : List (List Char)} (h : Relaid rows rows') : Relaid rows' rows
  | trans {rows rows' rows'' : List (List Char)} (h : Relaid rows rows')
    (h' : Relaid rows' rows'') : Relaid rows rows''

theorem Respelt.content?_eq {row row' : List Char} (h : Respelt row row') :
    content? (Text.strip row) = content? (Text.strip row') := by
  cases h with
  | @key k k' hk h v =>
    have hequals : ¬ Text.IsLetterCode '='.toNat := by
      unfold Text.IsLetterCode
      decide
    have hk' : '=' ∉ k' := mt (h.mem_iff hequals).2 hk
    have hhash : ¬ Text.IsLetterCode '#'.toNat := by
      unfold Text.IsLetterCode
      decide
    rw [content?_strip_equals hk, content?_strip_equals hk', h.strip.lower_eq]
    simp only [h.strip.head?_eq_iff hhash]
  | ends hw hw' row => rw [Text.strip_append_right hw', Text.strip_append_left hw]
  | @equals k w w' hk hw hw' v =>
    have hkw : '=' ∉ k ++ w := by
      rw [List.mem_append, not_or]
      refine ⟨hk, fun hmem => ?_⟩
      have hblank := hw _ hmem
      revert hblank
      decide
    rw [content?_strip_equals hk, content?_strip_equals hkw, Text.strip_append_right hw,
      Text.strip_append_left hw']

theorem Relaid.agree {rows rows' : List (List Char)} (h : Relaid rows rows') :
    Agree (rows.map Text.strip) (rows'.map Text.strip) := by
  induction h with
  | silent h above below =>
    apply Agree.of_content
    have hnone : content? (Text.strip _) = none := if_pos h
    simp [hnone]
  | respelt h above below =>
    apply Agree.of_content
    simp [List.filterMap_cons, h.content?_eq]
  | @reordered rows rows' h hkeys =>
    constructor
    · have hmem : ∀ line, line ∈ rows.map Text.strip ↔ line ∈ rows'.map Text.strip :=
        fun line => (h.map _).mem_iff
      simp only [hmem]
    · intro key
      have hfilter : ∀ rs : List (List Char), (rs.map Text.strip).filterMap (valueOf key) =
          (rs.filter (setsKey key)).filterMap fun row => valueOf key (Text.strip row) := by
        intro rs
        rw [List.filterMap_map, List.filterMap_filter]
        refine List.filterMap_congr fun row _ => ?_
        cases hrow : valueOf key (Text.strip row) <;> simp [setsKey, hrow]
      rw [lastValue, lastValue, hfilter, hfilter, hkeys]
  | symm _ ih => exact ih.symm
  | trans _ _ ih ih' => exact ih.trans ih'

/-! ## Rows as text -/

/-- The ends of a row. -/
inductive RowEnd : List Char → Prop where
  | newline : RowEnd ['\n']
  | returnNewline : RowEnd ['\r', '\n']
  | carriageReturn : RowEnd ['\r']

/-- The row contains no end of a row. -/
def OneRow (row : List Char) : Prop := '\n' ∉ row ∧ '\r' ∉ row

/-- The text consists of the rows, each but the last with some end. -/
inductive Written : List (List Char) → List Char → Prop where
  | last {row : List Char} (h : OneRow row) : Written [row] row
  | row {row ending cs : List Char} {rows : List (List Char)} (h : OneRow row)
    (hend : RowEnd ending) (hrest : Written rows cs) :
    Written (row :: rows) (row ++ ending ++ cs)

/-- What the lines of a text say. -/
def contents (cs : List Char) : List (Option (String × List Char)) :=
  ((Text.splitAt '\n' (plainLineEnds cs)).map Text.strip).filterMap content?

theorem plainLineEnds_append {row : List Char} (h : '\r' ∉ row) (cs : List Char) :
    plainLineEnds (row ++ cs) = row ++ plainLineEnds cs := by
  induction row with
  | nil => rfl
  | cons c row ih =>
    rw [List.mem_cons, not_or] at h
    rw [List.cons_append, List.cons_append, ← ih h.2, plainLineEnds]
    · exact fun _ hc => absurd hc.symm h.1
    · exact fun hc => absurd hc.symm h.1

theorem contents_append_newline {row : List Char} (h : OneRow row) (cs : List Char) :
    contents (row ++ '\n' :: cs) = (content? (Text.strip row)).toList ++ contents cs := by
  have hplain : plainLineEnds ('\n' :: cs) = '\n' :: plainLineEnds cs := rfl
  rw [contents, plainLineEnds_append h.2, hplain, Text.splitAt_append_cons,
    Text.splitAt_of_notMem h.1]
  cases hrow : content? (Text.strip row) <;> simp [contents, hrow]

/-- A row with any end says what the row says. -/
theorem contents_append {row ending : List Char} (h : OneRow row) (hend : RowEnd ending)
    (cs : List Char) :
    contents (row ++ ending ++ cs) = (content? (Text.strip row)).toList ++ contents cs := by
  have hempty : OneRow [] := ⟨List.not_mem_nil, List.not_mem_nil⟩
  rw [List.append_assoc, ← contents_append_newline h]
  have hplain : ∀ {ds ds' : List Char}, plainLineEnds ds = plainLineEnds ds' →
      contents (row ++ ds) = contents (row ++ ds') := by
    intro ds ds' hds
    rw [contents, contents, plainLineEnds_append h.2, plainLineEnds_append h.2, hds]
  cases hend with
  | newline => rfl
  | returnNewline => exact hplain rfl
  | carriageReturn =>
    cases cs with
    | nil => exact hplain rfl
    | cons c cs =>
      by_cases hc : c = '\n'
      · -- the two characters are one end of a row, and the empty row between them says nothing
        have hboth : plainLineEnds (['\r'] ++ '\n' :: cs) = plainLineEnds ('\n' :: cs) := rfl
        have hnewline : contents ('\n' :: cs) = contents cs := contents_append_newline hempty cs
        rw [hc, hplain hboth, contents_append_newline h, contents_append_newline h, hnewline]
      · refine hplain ?_
        rw [List.singleton_append, plainLineEnds]
        · rfl
        · rintro ds hds
          exact hc (List.cons.inj hds).1

theorem Written.contents_eq {rows : List (List Char)} {cs : List Char} (h : Written rows cs) :
    contents cs = (rows.map Text.strip).filterMap content? := by
  induction h with
  | @last row h =>
    have hplain : plainLineEnds row = row := by
      have hrow := plainLineEnds_append h.2 []
      rwa [List.append_nil, plainLineEnds, List.append_nil] at hrow
    rw [contents, hplain, Text.splitAt_of_notMem h.1, List.map_singleton]
  | @row row ending cs rows h hend _ ih =>
    rw [contents_append h hend, ih]
    cases hrow : content? (Text.strip row) <;> simp [hrow]

theorem exists_written (cs : List Char) : ∃ rows, Written rows cs := by
  have hempty : OneRow [] := ⟨List.not_mem_nil, List.not_mem_nil⟩
  induction cs with
  | nil => exact ⟨[[]], .last hempty⟩
  | cons c cs ih =>
    obtain ⟨rows, hrows⟩ := ih
    by_cases hnewline : c = '\n'
    · exact ⟨[] :: rows, hnewline ▸ .row hempty .newline hrows⟩
    by_cases hreturn : c = '\r'
    · exact ⟨[] :: rows, hreturn ▸ .row hempty .carriageReturn hrows⟩
    have hcons : ∀ {row : List Char}, OneRow row → OneRow (c :: row) := fun h =>
      ⟨by simp [h.1, Ne.symm hnewline], by simp [h.2, Ne.symm hreturn]⟩
    cases hrows with
    | last h => exact ⟨_, .last (hcons h)⟩
    | row h hend hrest => exact ⟨_, .row (hcons h) hend hrest⟩

/-- The lines of a text say what its rows say. -/
theorem Written.agree {rows : List (List Char)} {text : String} (h : Written rows text.toList) :
    Agree (lines text) (rows.map Text.strip) :=
  Agree.of_content h.contents_eq

/-- Two rows that set different keys may change places. -/
theorem Relaid.swap {row row' : List Char}
    (h : ∀ key, setsKey key row = true → setsKey key row' = false)
    (above below : List (List Char)) :
    Relaid (above ++ row :: row' :: below) (above ++ row' :: row :: below) := by
  refine .reordered ((List.Perm.swap row' row below).append_left above) fun key => ?_
  rw [List.filter_append, List.filter_append]
  refine congrArg _ ?_
  simp only [List.filter_cons]
  cases hrow : setsKey key row with
  | false => simp
  | true => simp [h key hrow]

end SettingsFile

/-- **A settings file is read by the last value of each key, in any layout.** A text consists of
rows, whatever their ends. It is accepted if and only if each row is blank, a comment, or sets a
known key to a value that can be read, and the last values of the keys, over the defaults, are
sound; then it describes the settings with these values. So two texts are accepted together and
describe the same settings if their rows differ in silent rows, in the case of keys, in blanks at
their ends or around the first equals sign or in the order of rows with different keys, and the
texts in the ends of the rows. -/
theorem settings_by_last_values :
    (∀ text : String, ∃ rows, SettingsFile.Written rows text.toList) ∧
    (∀ (rows : List (List Char)) (text : String), SettingsFile.Written rows text.toList →
      ∀ s, SettingsFile.read text = .ok s ↔
        (∀ row ∈ rows, SettingsFile.Acceptable (Text.strip row)) ∧
          (SettingsFile.valuesOf (rows.map Text.strip)).Sound ∧
          s.plain = SettingsFile.valuesOf (rows.map Text.strip)) ∧
    ∀ (rows rows' : List (List Char)) (text text' : String), SettingsFile.Relaid rows rows' →
      SettingsFile.Written rows text.toList → SettingsFile.Written rows' text'.toList →
        (SettingsFile.read text).toOption = (SettingsFile.read text').toOption := by
  refine ⟨fun text => SettingsFile.exists_written _, fun rows text hwritten s => ?_, ?_⟩
  · rw [SettingsFile.read_eq_ok_iff, hwritten.agree.acceptable, hwritten.agree.valuesOf_eq,
      List.forall_mem_map]
  · intro rows rows' text text' hrelaid hwritten hwritten'
    exact SettingsFile.Agree.read_eq
      ((hwritten.agree.trans hrelaid.agree).trans hwritten'.agree.symm)

section Example

open SettingsFile

/-- Three rows; the first and the last one set the same key. -/
def threeRows : List (List Char) :=
  [['b', 'o', 'y', 's', '=', '0'], ['w', 'o', 'r', 'k', 'e', 'r', 's', '=', '4'],
    ['b', 'o', 'y', 's', '=', '1']]

/-- The same rows in another layout, below a comment. -/
def fourRows : List (List Char) :=
  [['#'], ['w', 'o', 'r', 'k', 'e', 'r', 's', ' ', '=', '\t', '4'], ['B', 'O', 'Y', 'S', '=', '0'],
    [' ', 'b', 'o', 'y', 's', '=', '1']]

theorem relaid_fourRows : Relaid threeRows fourRows := by
  have hblank : ∀ w : List Char, w.all Text.isBlank = true → Text.AllBlank w :=
    fun w h => List.all_eq_true.1 h
  have hkeys : ∀ key, setsKey key ['b', 'o', 'y', 's', '=', '0'] = true →
      setsKey key ['w', 'o', 'r', 'k', 'e', 'r', 's', '=', '4'] = false := by
    intro key h
    have hboys : setting? (Text.strip ['b', 'o', 'y', 's', '=', '0']) =
        some ("boys", ['0']) := by decide +kernel
    have hworkers : setting? (Text.strip ['w', 'o', 'r', 'k', 'e', 'r', 's', '=', '4']) =
        some ("workers", ['4']) := by decide +kernel
    rw [setsKey, valueOf, hboys] at h
    rw [setsKey, valueOf, hworkers]
    grind
  have hequals : Respelt ['w', 'o', 'r', 'k', 'e', 'r', 's', '=', '4']
      ['w', 'o', 'r', 'k', 'e', 'r', 's', ' ', '=', '\t', '4'] :=
    .equals (k := ['w', 'o', 'r', 'k', 'e', 'r', 's']) (by decide) (hblank [' '] (by decide))
      (hblank ['\t'] (by decide)) ['4']
  have hletters : Text.SameLetters ['b', 'o', 'y', 's'] ['B', 'O', 'Y', 'S'] :=
    .cons rfl (.cons rfl (.cons rfl (.cons rfl .nil)))
  have hkey : Respelt ['b', 'o', 'y', 's', '=', '0'] ['B', 'O', 'Y', 'S', '=', '0'] :=
    .key (by decide) hletters ['0']
  have hends : Respelt ['b', 'o', 'y', 's', '=', '1'] [' ', 'b', 'o', 'y', 's', '=', '1'] :=
    .ends (hblank [' '] (by decide)) (hblank [] (by decide)) _
  have hswap := Relaid.swap hkeys [] [['b', 'o', 'y', 's', '=', '1']]
  have h₁ := hswap.trans (.respelt hequals [] _)
  have h₂ := h₁.trans (.respelt hkey [_] _)
  have h₃ := h₂.trans (.respelt hends [_, _] [])
  exact h₃.trans (.silent (.inr (by decide)) [] _)

/-- The rows with all three ends of a row. -/
theorem settings_by_last_values_threeRows :
    Relaid threeRows fourRows ∧
      Written threeRows "boys=0\nworkers=4\r\nboys=1".toList ∧
      Written fourRows "#\rworkers =\t4\r\nBOYS=0\n boys=1".toList ∧
      (SettingsFile.read "boys=0\nworkers=4\r\nboys=1").toOption.map
        (fun s => (s.boys, s.workers)) = some (true, 4) ∧
      (SettingsFile.read "boys=0\nworkers=4\r\nboys=1").toOption =
        (SettingsFile.read "#\rworkers =\t4\r\nBOYS=0\n boys=1").toOption := by
  have hrow : ∀ row : List Char, (!row.contains '\n' && !row.contains '\r') = true →
      OneRow row := fun row h => by simpa [OneRow] using h
  have hthree : Written threeRows "boys=0\nworkers=4\r\nboys=1".toList := by
    have htext : "boys=0\nworkers=4\r\nboys=1".toList =
        ['b', 'o', 'y', 's', '=', '0'] ++ ['\n'] ++
          (['w', 'o', 'r', 'k', 'e', 'r', 's', '=', '4'] ++ ['\r', '\n'] ++
            ['b', 'o', 'y', 's', '=', '1']) := by decide
    rw [htext]
    exact .row (hrow _ (by decide)) .newline (.row (hrow _ (by decide)) .returnNewline
      (.last (hrow _ (by decide))))
  have hfour : Written fourRows "#\rworkers =\t4\r\nBOYS=0\n boys=1".toList := by
    have htext : "#\rworkers =\t4\r\nBOYS=0\n boys=1".toList =
        ['#'] ++ ['\r'] ++
          (['w', 'o', 'r', 'k', 'e', 'r', 's', ' ', '=', '\t', '4'] ++ ['\r', '\n'] ++
            (['B', 'O', 'Y', 'S', '=', '0'] ++ ['\n'] ++
              [' ', 'b', 'o', 'y', 's', '=', '1'])) := by decide
    rw [htext]
    exact .row (hrow _ (by decide)) .carriageReturn (.row (hrow _ (by decide)) .returnNewline
      (.row (hrow _ (by decide)) .newline (.last (hrow _ (by decide)))))
  exact ⟨relaid_fourRows, hthree, hfour, by decide +kernel,
    settings_by_last_values.2.2 _ _ _ _ relaid_fourRows hthree hfour⟩

end Example

end GaussianIntegrals
