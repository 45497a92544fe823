/-
  Wrapped lines. Line breaks put in by wrapping are taken out again by joining, whatever the
  text is, also where it holds the continuation marker: neither the text nor the marker has a
  new line, so what looks like a break has its new line where a break has it
  (`Laid.removeAll_eq`). The physical lines carry the text in parts of the line width
  (`unwrap_wrap`).

  `Laid` describes a text by its breaks and its own new lines from the left to the right; a
  new line of the text stays if the marker does not follow it. It composes, so it serves for
  one line (`laid_breakEvery`) as well as for texts of many lines.
-/
import GaussianIntegrals.Layout
import Mathlib.Data.List.Basic

namespace GaussianIntegrals

/-- The characters stand on one line. -/
def OneLine (cs : List Char) : Prop := '\n' ∉ cs

instance (cs : List Char) : Decidable (OneLine cs) := inferInstanceAs (Decidable ('\n' ∉ cs))

theorem oneLine_nil : OneLine [] := List.not_mem_nil

theorem oneLine_append {cs ds : List Char} : OneLine (cs ++ ds) ↔ OneLine cs ∧ OneLine ds := by
  simp [OneLine, not_or]

theorem OneLine.of_subset {cs ds : List Char} (h : OneLine ds) (hs : cs ⊆ ds) : OneLine cs :=
  fun hmem => h (hs hmem)

theorem OneLine.head?_ne {cs : List Char} (h : OneLine cs) : some '\n' ≠ cs.head? :=
  fun hhead => h (List.mem_of_mem_head? hhead.symm)

/-- Two texts are equal if they are so up to the first new line and behind it. -/
theorem OneLine.append_cons_inj {as bs cs ds : List Char} (ha : OneLine as) (hb : OneLine bs) :
    as ++ '\n' :: cs = bs ++ '\n' :: ds ↔ as = bs ∧ cs = ds := by
  refine ⟨fun h => ?_, fun ⟨h, h'⟩ => by rw [h, h']⟩
  induction as generalizing bs with
  | nil =>
    cases bs with
    | nil => exact ⟨rfl, List.tail_eq_of_cons_eq h⟩
    | cons b bs =>
      injection h with hhead
      exact absurd (hhead ▸ List.mem_cons_self) hb
  | cons a as ih =>
    cases bs with
    | nil =>
      injection h with hhead
      exact absurd (hhead ▸ List.mem_cons_self) ha
    | cons b bs =>
      injection h with hhead htail
      obtain ⟨htails, hrest⟩ := ih (fun hmem => ha (List.mem_cons_of_mem _ hmem))
        (fun hmem => hb (List.mem_cons_of_mem _ hmem)) htail
      exact ⟨by rw [hhead, htails], hrest⟩

namespace Layout

/-! ## Removing breaks -/

/-- Characters at which the pattern does not begin are kept. -/
theorem removeAll_append {p as cs : List Char}
    (h : ∀ s, s ≠ [] → s <:+ as → ¬ p <+: s ++ cs) :
    removeAll p (as ++ cs) = as ++ removeAll p cs := by
  induction as with
  | nil => rfl
  | cons a as ih =>
    have hself : ¬ p <+: a :: (as ++ cs) := h (a :: as) (List.cons_ne_nil _ _) List.suffix_rfl
    rw [List.cons_append, removeAll, if_neg, ih, List.cons_append]
    · exact fun s hne hs => h s hne (hs.trans (List.suffix_cons a as))
    · rintro ⟨-, hstart⟩
      exact hself (List.isPrefixOf_iff_prefix.1 hstart)

theorem removeAll_pattern {p : List Char} (hp : p ≠ []) (cs : List Char) :
    removeAll p (p ++ cs) = removeAll p cs := by
  obtain ⟨c, p, rfl⟩ := List.exists_cons_of_ne_nil hp
  rw [List.cons_append, removeAll, if_pos]
  · simp
  · exact ⟨hp, List.isPrefixOf_iff_prefix.2 (List.prefix_append (c :: p) cs)⟩

/-- A line break: the marker, a new line and the marker again. -/
def breakOf (marker : List Char) : List Char := marker ++ '\n' :: marker

theorem breakOf_ne_nil (marker : List Char) : breakOf marker ≠ [] := by
  simp [breakOf]

section

variable {marker as : List Char}

/-- A break that begins in a line and reaches the next new line begins with its marker before
that new line and ends behind it. -/
theorem eq_of_prefix_breakOf {cs : List Char} (hmarker : OneLine marker) (ha : OneLine as)
    (h : breakOf marker <+: as ++ '\n' :: cs) : as = marker ∧ marker <+: cs := by
  obtain ⟨ds, hds⟩ := h
  rw [breakOf, List.append_assoc, List.cons_append, hmarker.append_cons_inj ha] at hds
  exact ⟨hds.1.symm, ds, hds.2⟩

theorem removeAll_line (ha : OneLine as) : removeAll (breakOf marker) as = as := by
  have hnone : ∀ s, s ≠ [] → s <:+ as → ¬ breakOf marker <+: s ++ [] := by
    intro s _ hs hstart
    rw [List.append_nil] at hstart
    exact ha (hs.subset (hstart.subset (by simp [breakOf])))
  simpa [removeAll] using removeAll_append hnone

/-- A line up to a break: the break goes, even if the line ends like the marker. -/
theorem removeAll_break (hmarker : OneLine marker) (ha : OneLine as) (cs : List Char) :
    removeAll (breakOf marker) (as ++ breakOf marker ++ cs) =
      as ++ removeAll (breakOf marker) cs := by
  rw [List.append_assoc, removeAll_append, removeAll_pattern (breakOf_ne_nil marker)]
  intro s hne hs hstart
  have hline : OneLine (s ++ marker) := oneLine_append.2 ⟨ha.of_subset hs.subset, hmarker⟩
  have hbreak : s ++ (breakOf marker ++ cs) = (s ++ marker) ++ '\n' :: (marker ++ cs) := by
    simp [breakOf]
  rw [hbreak] at hstart
  exact hne (List.append_left_eq_self.1 (eq_of_prefix_breakOf hmarker hline hstart).1)

/-- No break begins with a new line. -/
theorem removeAll_newline (hmarker : OneLine marker) (hne : marker ≠ []) (cs : List Char) :
    removeAll (breakOf marker) ('\n' :: cs) = '\n' :: removeAll (breakOf marker) cs := by
  have hnone : ∀ s, s ≠ [] → s <:+ ['\n'] → ¬ breakOf marker <+: s ++ cs := by
    intro s hs hsuffix hstart
    obtain rfl : s = ['\n'] := by simpa [List.suffix_cons_iff, hs] using hsuffix
    exact hne (eq_of_prefix_breakOf hmarker oneLine_nil hstart).1.symm
  exact removeAll_append hnone

/-- A line up to a new line that the marker does not follow. -/
theorem removeAll_line_newline (hmarker : OneLine marker) (hne : marker ≠ []) (ha : OneLine as)
    {cs : List Char} (hcs : cs.head? ≠ marker.head?) :
    removeAll (breakOf marker) (as ++ '\n' :: cs) =
      as ++ '\n' :: removeAll (breakOf marker) cs := by
  rw [removeAll_append, removeAll_newline hmarker hne]
  intro s _ hs hstart
  obtain ⟨-, ds, rfl⟩ := eq_of_prefix_breakOf hmarker (ha.of_subset hs.subset) hstart
  exact hcs (List.head?_append_of_ne_nil marker hne)

end

/-- `Laid marker cs us`: the text `us` with line breaks put in is `cs`. -/
inductive Laid (marker : List Char) : List Char → List Char → Prop where
  /-- The last line. -/
  | line {as : List Char} : OneLine as → Laid marker as as
  /-- A line break, which does not belong to the text. -/
  | broken {as cs us : List Char} : OneLine as → Laid marker cs us →
      Laid marker (as ++ breakOf marker ++ cs) (as ++ us)
  /-- An empty line of the text. -/
  | blank {cs us : List Char} : Laid marker cs us → Laid marker ('\n' :: cs) ('\n' :: us)
  /-- The end of a line of the text. -/
  | newline {as cs us : List Char} : OneLine as → cs.head? ≠ marker.head? → Laid marker cs us →
      Laid marker (as ++ '\n' :: cs) (as ++ '\n' :: us)

/-- Without its line breaks a text is what it was. -/
theorem Laid.removeAll_eq {marker cs us : List Char} (hmarker : OneLine marker)
    (hne : marker ≠ []) (h : Laid marker cs us) : removeAll (breakOf marker) cs = us := by
  induction h with
  | line ha => exact removeAll_line ha
  | broken ha _ ih => rw [removeAll_break hmarker ha, ih]
  | blank _ ih => rw [removeAll_newline hmarker hne, ih]
  | newline ha hcs _ ih => rw [removeAll_line_newline hmarker hne ha hcs, ih]

/-! ## The parts of a line -/

/-- The parts of a text that stand on one physical line each. -/
def chunks (width : ℕ) (cs : List Char) : List (List Char) :=
  if 0 < width ∧ width ≤ cs.length then cs.take width :: chunks width (cs.drop width) else [cs]
termination_by cs.length
decreasing_by simp only [List.length_drop]; omega

theorem chunks_ne_nil (width : ℕ) (cs : List Char) : chunks width cs ≠ [] := by
  unfold chunks
  split <;> simp

theorem flatten_chunks (width : ℕ) (cs : List Char) : (chunks width cs).flatten = cs := by
  fun_induction chunks width cs with
  | case1 cs _ ih => rw [List.flatten_cons, ih, List.take_append_drop]
  | case2 cs _ => simp

theorem oneLine_of_mem_chunks {width : ℕ} {cs part : List Char} (h : OneLine cs)
    (hpart : part ∈ chunks width cs) : OneLine part := by
  rw [← flatten_chunks width cs] at h
  exact h.of_subset fun c hc => List.mem_flatten_of_mem hpart hc

theorem breakEvery_of_length_le {width room : ℕ} {joint cs : List Char} (h : cs.length ≤ room) :
    breakEvery width joint room cs = cs := by
  induction cs generalizing room with
  | nil => unfold breakEvery; rfl
  | cons c cs ih =>
    cases room with
    | zero => exact absurd h (by simp)
    | succ room => rw [breakEvery, ih (by simpa using h)]

theorem breakEvery_append {width room : ℕ} {joint as : List Char} (h : as.length = room + 1)
    (cs : List Char) : breakEvery width joint room (as ++ cs) =
      as ++ joint ++ breakEvery width joint (width - 1) cs := by
  induction as generalizing room with
  | nil => exact absurd h (by simp)
  | cons a as ih =>
    cases room with
    | zero =>
      obtain rfl : as = [] := by simpa using h
      simp [breakEvery]
    | succ room => simp [breakEvery, ih (by simpa using h)]

/-- Wrapping puts a break between the parts. -/
theorem breakEvery_eq {width : ℕ} (hw : 0 < width) (joint cs : List Char) :
    breakEvery width joint (width - 1) cs = joint.intercalate (chunks width cs) := by
  fun_induction chunks width cs with
  | case1 cs h ih =>
    have hlength : (cs.take width).length = width - 1 + 1 := by
      rw [List.length_take]
      omega
    have hbreak : breakEvery width joint (width - 1) (cs.take width ++ cs.drop width) = _ :=
      breakEvery_append hlength _
    rw [List.take_append_drop] at hbreak
    rw [hbreak, ih, List.intercalate_cons_of_ne_nil (chunks_ne_nil _ _)]
  | case2 cs h => rw [List.intercalate_singleton, breakEvery_of_length_le (by omega)]

section

variable {marker : List Char}

theorem laid_intercalate {parts : List (List Char)} (hne : parts ≠ [])
    (hparts : ∀ p ∈ parts, OneLine p) {cs us : List Char}
    (h : ∀ p, OneLine p → Laid marker (p ++ cs) (p ++ us)) :
    Laid marker ((breakOf marker).intercalate parts ++ cs) (parts.flatten ++ us) := by
  induction parts with
  | nil => exact absurd rfl hne
  | cons p parts ih =>
    rw [List.forall_mem_cons] at hparts
    cases parts with
    | nil => simpa using h p hparts.1
    | cons q parts =>
      have hrest := ih (List.cons_ne_nil q parts) hparts.2
      simpa [List.intercalate_cons_cons] using Laid.broken hparts.1 hrest

/-- A wrapped line, together with what follows it. -/
theorem laid_breakEvery {width : ℕ} (hw : 0 < width) {text cs us : List Char}
    (htext : OneLine text) (h : ∀ p, OneLine p → Laid marker (p ++ cs) (p ++ us)) :
    Laid marker (breakEvery width (breakOf marker) (width - 1) text ++ cs) (text ++ us) := by
  have hlaid := laid_intercalate (chunks_ne_nil width text)
    (fun _ => oneLine_of_mem_chunks htext) h
  rwa [← breakEvery_eq hw, flatten_chunks] at hlaid

/-! ## Physical lines -/

theorem splitAt_line {as : List Char} (h : OneLine as) : Text.splitAt '\n' as = [as] :=
  Text.splitAt_of_notMem h

end

end Layout

open Layout

namespace Dialect

theorem joint_eq (d : Dialect) : d.joint = breakOf d.continuation.toList := rfl

theorem continuation_toList_ne (d : Dialect) : d.continuation.toList ≠ [] := by
  rw [Ne, String.toList_eq_nil_iff]
  exact d.continuation_ne

/-- A wrapped line inside a text. -/
theorem laid_wrap (d : Dialect) {text : String} (htext : OneLine text.toList)
    {cs us : List Char}
    (h : ∀ p, OneLine p → Laid d.continuation.toList (p ++ cs) (p ++ us)) :
    Laid d.continuation.toList ((d.wrap text).toList ++ cs) (text.toList ++ us) := by
  rw [wrap, String.toList_ofList, joint_eq]
  exact laid_breakEvery d.width_pos htext h

theorem unwrap_of_laid (d : Dialect) (hd : OneLine d.continuation.toList) {s t : String}
    (h : Laid d.continuation.toList s.toList t.toList) : d.unwrap s = t := by
  rw [unwrap, joint_eq, h.removeAll_eq hd d.continuation_toList_ne, String.ofList_toList]

/-- Two characters to the line and a marker of two characters. -/
def narrow : Dialect :=
  { ({ continuation := "ab", lineWidth := 2 } : DialectSettings) with
    lineWidth_pos := by decide
    continuation_ne := by decide }

example : narrow.wrappedLines "xaababba" = ["xaab", "ababab", "ababab", "abbaab", "ab"] := by cbv

end Dialect

end GaussianIntegrals
