/-
  A template on one line is filled in on one line (`oneLine_expand`), if the values of its
  fields are on one line, and the attributes that it asks for: all else that a field can bring in
  is the text of a value, digits, signs, marks and the fill of its specification. The one number
  that is a new line is 10, as a character. The descriptions of texts and integers have several
  lines, so that the standard reflection is not on one line, but the one without attributes is.
-/
import GaussianIntegrals.Proofs.Code.Numeral
import GaussianIntegrals.Proofs.LineBreaks
import GaussianIntegrals.Proofs.Outcomes
import GaussianIntegrals.Template.Expand

namespace GaussianIntegrals

/-! ## Operations on a line -/

theorem oneLine_cons {c : Char} {cs : List Char} : OneLine (c :: cs) ↔ c ≠ '\n' ∧ OneLine cs := by
  rw [OneLine, List.mem_cons, not_or, ne_comm, OneLine]

theorem OneLine.take {cs : List Char} (h : OneLine cs) (n : ℕ) : OneLine (cs.take n) :=
  h.of_subset (List.take_subset n cs)

theorem OneLine.drop {cs : List Char} (h : OneLine cs) (n : ℕ) : OneLine (cs.drop n) :=
  h.of_subset (List.drop_subset n cs)

theorem OneLine.takeWhile {cs : List Char} (h : OneLine cs) (p : Char → Bool) :
    OneLine (cs.takeWhile p) :=
  h.of_subset (List.takeWhile_subset p)

theorem oneLine_replicate {c : Char} (h : c ≠ '\n') (n : ℕ) : OneLine (List.replicate n c) :=
  fun hmem => h (List.eq_of_mem_replicate hmem).symm

theorem oneLine_flatMap {α : Type} {as : List α} {f : α → List Char}
    (h : ∀ a ∈ as, OneLine (f a)) : OneLine (as.flatMap f) := by
  intro hmem
  obtain ⟨a, ha, hc⟩ := List.mem_flatMap.1 hmem
  exact h a ha hc

namespace Number

/-! ## Texts of numbers -/

theorem digitChar_ne_newline (n : ℕ) : Nat.digitChar n ≠ '\n' := by
  by_cases hn : n < 16
  · have hdigits : ∀ k < 16, Nat.digitChar k ≠ '\n' := by decide
    exact hdigits n hn
  · have hstar : Nat.digitChar n = '*' := by
      unfold Nat.digitChar
      repeat' rw [if_neg (by omega)]
    rw [hstar]
    decide

theorem oneLine_toDigits {b : ℕ} (hb : 1 < b) (n : ℕ) : OneLine (Nat.toDigits b n) := by
  induction n using Nat.strongRecOn with
  | ind n ih =>
    by_cases hn : n < b
    · rw [Nat.toDigits_of_lt_base hn, oneLine_cons]
      exact ⟨digitChar_ne_newline n, oneLine_nil⟩
    · rw [Nat.toDigits_of_base_le hb (by omega), oneLine_append, oneLine_cons]
      exact ⟨ih _ (Nat.div_lt_self (by omega) hb), digitChar_ne_newline _, oneLine_nil⟩

theorem oneLine_padZeros (width : ℕ) {cs : List Char} (h : OneLine cs) :
    OneLine (padZeros width cs) :=
  oneLine_append.2 ⟨oneLine_replicate (by decide) _, h⟩

theorem oneLine_paddedDigits (width n : ℕ) : OneLine (padZeros width (digitChars n)) :=
  oneLine_padZeros width (oneLine_toDigits (by decide) n)

theorem oneLine_dropZeros {cs : List Char} (h : OneLine cs) : OneLine (dropZeros cs) := by
  refine h.of_subset fun c hc => ?_
  exact List.mem_reverse.1 (List.dropWhile_subset _ (List.mem_reverse.1 hc))

theorem oneLine_withPoint (keep : Bool) {whole places : List Char} (hw : OneLine whole)
    (hp : OneLine places) : OneLine (withPoint keep whole places) := by
  unfold withPoint
  split
  · exact hw
  · exact oneLine_append.2 ⟨hw, oneLine_cons.2 ⟨by decide, hp⟩⟩

theorem oneLine_exponentChars {mark : Char} (hm : mark ≠ '\n') (e : Int) :
    OneLine (exponentChars mark e) := by
  refine oneLine_cons.2 ⟨hm, oneLine_cons.2 ⟨?_, oneLine_paddedDigits 2 _⟩⟩
  split <;> decide

theorem oneLine_fixedChars (keep : Bool) (places n d : ℕ) :
    OneLine (fixedChars keep places n d) :=
  oneLine_withPoint keep ((oneLine_paddedDigits _ _).take _) ((oneLine_paddedDigits _ _).drop _)

theorem oneLine_exponentForm {mark : Char} (hm : mark ≠ '\n') (keep : Bool) (places n d : ℕ) :
    OneLine (exponentForm mark keep places n d) :=
  oneLine_append.2 ⟨oneLine_withPoint keep ((oneLine_paddedDigits _ _).take _)
    ((oneLine_paddedDigits _ _).drop _), oneLine_exponentChars hm _⟩

theorem GeneralForm.oneLine_chars (f : GeneralForm) (hm : f.mark ≠ '\n') (n d : ℕ) :
    OneLine (f.chars n d) := by
  have htrim : ∀ cs, OneLine cs → OneLine (if f.keepZeros then cs else dropZeros cs) := by
    intro cs hcs
    split
    · exact hcs
    · exact oneLine_dropZeros hcs
  unfold GeneralForm.chars GeneralForm.write
  dsimp only
  split
  · exact oneLine_append.2 ⟨oneLine_withPoint _ ((oneLine_paddedDigits _ _).take _)
      (htrim _ ((oneLine_paddedDigits _ _).drop _)), oneLine_exponentChars hm _⟩
  · split
    · exact oneLine_withPoint _ (by decide) (htrim _ (oneLine_append.2
        ⟨oneLine_replicate (by decide) _, oneLine_paddedDigits _ _⟩))
    · exact oneLine_withPoint _ ((oneLine_paddedDigits _ _).take _)
        (htrim _ ((oneLine_paddedDigits _ _).drop _))

end Number

open Number

namespace Text

/-! ## Quoted texts -/

theorem oneLine_hexDigits (width n : ℕ) : OneLine (hexDigits width n) := by
  induction width generalizing n with
  | zero => exact oneLine_nil
  | succ width ih =>
    exact oneLine_append.2 ⟨ih _, oneLine_cons.2 ⟨digitChar_ne_newline _, oneLine_nil⟩⟩

theorem oneLine_numericEscape (n : ℕ) : OneLine (numericEscape n) := by
  unfold numericEscape
  repeat' split
  all_goals
    exact oneLine_cons.2 ⟨by decide, oneLine_cons.2 ⟨by decide, oneLine_hexDigits _ _⟩⟩

/-- Also a new line is escaped. -/
theorem oneLine_quoteChar (shown : Char → Bool) {q : Char} (hq : q ≠ '\n') (c : Char) :
    OneLine (quoteChar shown q c) := by
  unfold quoteChar
  split
  · next h =>
    refine oneLine_cons.2 ⟨by decide, oneLine_cons.2 ⟨?_, oneLine_nil⟩⟩
    rcases h with rfl | rfl
    · exact hq
    · decide
  · split
    · decide
    · split
      · decide
      · next hc =>
        split
        · decide
        · split
          · exact oneLine_cons.2 ⟨hc, oneLine_nil⟩
          · exact oneLine_numericEscape _

theorem oneLine_quoteWith (shown : Char → Bool) (s : String) :
    OneLine (quoteWith shown s).toList := by
  have hq : quoteFor s.toList ≠ '\n' := by
    unfold quoteFor
    split <;> decide
  rw [quoteWith, String.toList_ofList]
  exact oneLine_cons.2 ⟨hq, oneLine_append.2
    ⟨oneLine_flatMap fun c _ => oneLine_quoteChar shown hq c, oneLine_cons.2 ⟨hq, oneLine_nil⟩⟩⟩

end Text

namespace Template

/-! ## Specifications -/

/-- Neither the fill nor the grouping mark is a new line. -/
structure Spec.OnLine (s : Spec) : Prop where
  fill : s.fill ≠ '\n'
  grouping : s.grouping ≠ some '\n'

theorem takeAlignment_fill_mem {cs : List Char} {c : Char} (h : (takeAlignment cs).1 = some c) :
    c ∈ cs := by
  unfold takeAlignment at h
  split at h
  · split at h
    · injection h with h
      exact h ▸ List.mem_cons_self
    · cases h
    · cases h
  · split at h <;> cases h
  · cases h

theorem takeGrouping_ne {cs rest : List Char} {mark : Option Char}
    (h : takeGrouping cs = .ok (mark, rest)) : mark ≠ some '\n' := by
  unfold takeGrouping at h
  split at h <;> cases h <;> decide

/-- What is read as fill and as grouping. -/
theorem Spec.fields_of_read {v : Value} {cs : List Char} {s : Spec}
    (h : Spec.read v cs = .ok s) :
    (∃ zero : Bool, s.fill = (takeAlignment cs).1.getD (if zero then '0' else ' ')) ∧
      ∃ rest rest', takeGrouping rest = .ok (s.grouping, rest') := by
  unfold Spec.read at h
  dsimp only at h
  obtain ⟨⟨width, rest⟩, -, h⟩ := bind_eq_ok.1 h
  obtain ⟨⟨mark, rest'⟩, hmark, h⟩ := bind_eq_ok.1 h
  obtain ⟨⟨precision, rest''⟩, -, h⟩ := bind_eq_ok.1 h
  dsimp only at h hmark
  split at h
  · simp only [bind_eq_ok] at h
    obtain ⟨_, -, _, -, h⟩ := h
    cases h
    exact ⟨⟨_, rfl⟩, _, _, hmark⟩
  · simp only [bind_eq_ok] at h
    obtain ⟨_, -, _, -, h⟩ := h
    cases h
    exact ⟨⟨_, rfl⟩, _, _, hmark⟩
  · obtain ⟨_, h, -⟩ := bind_eq_ok.1 h
    cases h

/-- The fill is a character of the specification, zero or a blank. -/
theorem Spec.onLine_of_read {v : Value} {cs : List Char} {s : Spec} (hcs : OneLine cs)
    (h : Spec.read v cs = .ok s) : s.OnLine := by
  obtain ⟨⟨zero, hfill⟩, _, _, hgrouping⟩ := Spec.fields_of_read h
  refine ⟨?_, takeGrouping_ne hgrouping⟩
  rw [hfill]
  cases hmark : (takeAlignment cs).1 with
  | some c =>
    rintro rfl
    exact hcs (takeAlignment_fill_mem hmark)
  | none => cases zero <;> decide

theorem oneLine_grouped {mark : Char} (hm : mark ≠ '\n') (size : ℕ) {digits : List Char}
    (h : OneLine digits) : OneLine (grouped mark size digits) := by
  unfold grouped
  rw [← List.flatMap_def]
  refine oneLine_flatMap fun p hp => ?_
  have hdigit : p.1 ≠ '\n' := fun heq => h (heq ▸ (List.mem_zipIdx' hp).2 ▸ List.getElem_mem _)
  dsimp only
  split
  · exact oneLine_cons.2 ⟨hm, oneLine_cons.2 ⟨hdigit, oneLine_nil⟩⟩
  · exact oneLine_cons.2 ⟨hdigit, oneLine_nil⟩

theorem oneLine_signOf (s : Spec) (negative : Bool) : OneLine (s.signOf negative) := by
  unfold Spec.signOf
  repeat' split
  all_goals decide

theorem toUpper_ne_newline {c : Char} (hc : c ≠ '\n') : c.toUpper ≠ '\n' := by
  unfold Char.toUpper
  split
  · next h =>
    intro heq
    have hval := congrArg Char.val heq
    dsimp only at hval
    have hcode : c.val = '\n'.val - ('A'.val - 'a'.val) := by
      rw [← hval, UInt32.add_sub_cancel]
    rw [hcode] at h
    exact absurd h (by decide)
  · exact hc

theorem oneLine_intText (n : Int) : OneLine (toString n).toList := by
  have hdigits := oneLine_toDigits (b := 10) (by decide) n.natAbs
  rw [Code.toList_intText]
  split
  · exact oneLine_cons.2 ⟨by decide, hdigits⟩
  · exact hdigits

theorem oneLine_writeInt {n : Int} {text : String} (h : Text.writeInt n = .ok text) :
    OneLine text.toList := by
  unfold Text.writeInt at h
  split at h
  · cases h
  · cases h
    exact oneLine_intText n

theorem oneLine_integerChars {n : Int} {cs : List Char} (h : integerChars n = .ok cs) :
    OneLine cs := by
  obtain ⟨text, htext, rfl⟩ := map_eq_ok.1 (mapError_eq_ok.1 h)
  exact oneLine_writeInt htext

theorem oneLine_digitsOf {presentation : Char} {n : Int} {cs : List Char}
    (h : digitsOf presentation n = .ok cs) : OneLine cs := by
  have hbase : 1 < baseOf presentation := by
    unfold baseOf
    split <;> decide
  have hdigits := oneLine_toDigits hbase n.natAbs
  unfold digitsOf at h
  dsimp only at h
  split at h
  · exact oneLine_integerChars h
  · cases h
    split
    · intro hmem
      obtain ⟨c, hc, heq⟩ := List.mem_map.1 hmem
      exact toUpper_ne_newline (fun hnew => hdigits (hnew ▸ hc)) heq
    · exact hdigits

section

variable {s : Spec} (hs : s.OnLine)

include hs

theorem Spec.OnLine.padding (n : ℕ) :
    OneLine (s.padding n).1 ∧ OneLine (s.padding n).2.1 ∧ OneLine (s.padding n).2.2 := by
  have hfill := fun k => oneLine_replicate hs.fill k
  unfold Spec.padding
  dsimp only
  split
  · exact ⟨oneLine_nil, oneLine_nil, hfill _⟩
  · exact ⟨hfill _, oneLine_nil, oneLine_nil⟩
  · exact ⟨hfill _, oneLine_nil, hfill _⟩
  · exact ⟨oneLine_nil, hfill _, oneLine_nil⟩

theorem Spec.OnLine.number (presentation : Char) {p : NumberParts} (hsign : OneLine p.sign)
    (hlead : OneLine p.lead) (hdigits : OneLine p.digits) (hrest : OneLine p.rest) :
    OneLine (s.number presentation p) := by
  have hpadded : ∀ n cs, OneLine cs → OneLine ((s.padding n).1 ++ p.sign ++ p.lead ++
      (s.padding n).2.1 ++ cs ++ p.rest ++ (s.padding n).2.2) := by
    intro n cs hcs
    obtain ⟨hleft, hinner, hright⟩ := hs.padding n
    simp only [oneLine_append]
    exact ⟨⟨⟨⟨⟨⟨hleft, hsign⟩, hlead⟩, hinner⟩, hcs⟩, hrest⟩, hright⟩
  unfold Spec.number
  dsimp only
  split
  · exact hpadded _ _ (oneLine_padZeros _ hdigits)
  · next mark hmark =>
    have hm : mark ≠ '\n' := fun heq => hs.grouping (heq ▸ hmark)
    exact hpadded _ _ (oneLine_grouped hm _ (oneLine_padZeros _ hdigits))

theorem Spec.OnLine.integer {presentation : Char} {n : Int} {cs : List Char}
    (h : s.integer presentation n = .ok cs) : OneLine cs := by
  obtain ⟨digits, hdigits, h⟩ := bind_eq_ok.1 h
  cases h
  refine hs.number presentation (oneLine_signOf s _) ?_ (oneLine_digitsOf hdigits) oneLine_nil
  dsimp only
  split
  · next h =>
    refine oneLine_cons.2 ⟨by decide, oneLine_cons.2 ⟨?_, oneLine_nil⟩⟩
    rintro rfl
    exact h.2 rfl
  · exact oneLine_nil

/-- The new line is the character of the number 10 only. -/
theorem Spec.OnLine.character {n : Int} (hn : n ≠ 10) {cs : List Char}
    (h : s.character n = .ok cs) : OneLine cs := by
  unfold Spec.character at h
  split at h
  · cases h
  split at h
  · cases h
  split at h
  · cases h
  next hrange =>
    injection h with h
    subst h
    refine hs.number 'c' oneLine_nil oneLine_nil oneLine_nil (oneLine_cons.2 ⟨?_, oneLine_nil⟩)
    by_cases hvalid : n.toNat.isValidChar
    · rw [Char.ofNat, dif_pos hvalid]
      intro hchar
      have hcode : n.toNat = 10 := congrArg Char.toNat hchar
      omega
    · rw [Char.ofNat, dif_neg hvalid]
      decide

theorem Spec.OnLine.real (presentation : Char) {n : Int} {cs : List Char}
    (h : s.real presentation n = .ok cs) : OneLine cs := by
  have hmark : (if presentation.isUpper then 'E' else 'e') ≠ '\n' := by split <;> decide
  have hpercent : OneLine (if presentation = '%' then ['%'] else []) := by split <;> decide
  unfold Spec.real at h
  dsimp only at h
  split at h
  · cases h
  next b _ =>
    have htext : OneLine (if presentation = 'e' ∨ presentation = 'E' then
        exponentForm (if presentation.isUpper then 'E' else 'e') s.alternate
          (s.precision.getD 6) b.toQuotient.1 b.toQuotient.2
        else if presentation = 'g' ∨ presentation = 'G' then
          GeneralForm.chars ⟨max (s.precision.getD 6) 1, -4,
            if presentation.isUpper then 'E' else 'e', s.alternate⟩ b.toQuotient.1 b.toQuotient.2
        else fixedChars s.alternate (s.precision.getD 6) b.toQuotient.1 b.toQuotient.2) := by
      split
      · exact oneLine_exponentForm hmark _ _ _ _
      · split
        · exact GeneralForm.oneLine_chars _ hmark _ _
        · exact oneLine_fixedChars _ _ _ _
    injection h with h
    subst h
    exact hs.number presentation (oneLine_signOf s _) oneLine_nil (htext.takeWhile _)
      (oneLine_append.2 ⟨htext.drop _, by simpa using hpercent⟩)

theorem Spec.OnLine.text {t cs : List Char} (ht : OneLine t) (h : s.text t = .ok cs) :
    OneLine cs := by
  unfold Spec.text at h
  split at h
  · cases h
  · cases h
  iterate 3
    split at h
    · cases h
  injection h with h
  subst h
  have hpadding := fun n => hs.padding n
  refine oneLine_append.2 ⟨oneLine_append.2 ⟨(hpadding _).1, ?_⟩, (hpadding _).2.2⟩
  -- the text, cut to the precision if there is one
  split
  · exact ht.take _
  · exact ht

theorem Spec.OnLine.formatInteger {n : Int} (hn : n ≠ 10) {cs : List Char}
    (h : s.formatInteger n = .ok cs) : OneLine cs := by
  unfold Spec.formatInteger at h
  dsimp only at h
  split at h
  · iterate 2
      split at h
      · cases h
    split at h
    · exact hs.character hn h
    · exact hs.integer h
  · split at h
    · exact hs.real _ h
    · cases h

end

/-! ## Fields -/

/-- The text of the value is on one line, also as a character. Of the texts of other objects the
reflection decides. -/
def Value.OnLine : Value → Prop
  | .text s => OneLine s.toList
  | .integer n => n ≠ 10
  | .object _ => True

/-- Attributes and texts of objects are on one line. -/
structure Reflection.OnLine (r : Reflection) : Prop where
  part : ∀ {v w p}, v.OnLine → r.part v p = .ok w → w.OnLine
  convert : ∀ {name mark text}, r.convert name mark = .ok text → OneLine text.toList
  format : ∀ {name spec cs}, OneLine spec → r.format name spec = .ok cs → OneLine cs

theorem Reflection.onLine_bare : Reflection.bare.OnLine where
  part _ h := by cases h
  convert h := by cases h
  format _ h := by cases h

section

variable {r : Reflection} (hr : r.OnLine)

include hr

theorem Value.OnLine.format {v : Value} (hv : v.OnLine) {spec cs : List Char}
    (hspec : OneLine spec) (h : v.format r spec = .ok cs) : OneLine cs := by
  cases v with
  | object name => exact hr.format hspec h
  | text t =>
    simp only [Value.format] at h
    split at h
    · cases h
      exact hv
    · obtain ⟨s, hs, h⟩ := bind_eq_ok.1 h
      unfold Spec.formatText at h
      dsimp only at h
      split at h
      · exact (Spec.onLine_of_read hspec hs).text hv h
      · cases h
  | integer n =>
    simp only [Value.format] at h
    split at h
    · exact oneLine_integerChars h
    · obtain ⟨s, hs, h⟩ := bind_eq_ok.1 h
      exact (Spec.onLine_of_read hspec hs).formatInteger hv h

omit hr in
theorem onLine_of_integerPart? {n : Int} (hn : n ≠ 10) {name : List Char} {w : Value}
    (h : integerPart? n name = some w) : w.OnLine := by
  unfold integerPart? at h
  split at h
  · cases h
    exact hn
  split at h
  · cases h
    exact (by decide : (0 : Int) ≠ 10)
  split at h
  · cases h
    exact (by decide : (1 : Int) ≠ 10)
  · cases h

omit hr in
theorem onLine_of_characterAt {s : String} (hs : OneLine s.toList) {index : Option ℕ} {w : Value}
    (h : characterAt s index = .ok w) : w.OnLine := by
  cases index with
  | none => cases h
  | some i =>
    simp only [characterAt] at h
    split at h
    · next c hc =>
      cases h
      have hmem : c ∈ s.toList := List.mem_of_getElem? hc
      rw [Value.OnLine, String.toList_ofList, oneLine_cons]
      exact ⟨fun heq => hs (heq ▸ hmem), oneLine_nil⟩
    · cases h

theorem Value.OnLine.part {v w : Value} (hv : v.OnLine) {p : Part} (h : v.part r p = .ok w) :
    w.OnLine := by
  unfold Value.part at h
  split at h
  · cases h
  · cases h
  · split at h
    · next n =>
      cases hpart : integerPart? n _ with
      | some w' =>
        rw [hpart] at h
        cases h
        exact onLine_of_integerPart? hv hpart
      | none =>
        rw [hpart] at h
        exact hr.part hv h
    · exact hr.part hv h
  · obtain ⟨i, -, h⟩ := bind_eq_ok.1 h
    split at h
    · exact onLine_of_characterAt hv h
    · cases h
    · exact hr.part hv h

theorem Value.OnLine.followParts {v w : Value} (hv : v.OnLine) {n : ℕ} {name : List Char}
    (h : Template.followParts r n v name = .ok w) : w.OnLine := by
  fun_induction Template.followParts r n v name with
  | case1 | case2 =>
    injection h with h
    exact h ▸ hv
  | case3 _ _ _ _ ih | case5 _ _ _ _ _ ih =>
    obtain ⟨v', hv', h⟩ := bind_eq_ok.1 h
    exact ih v' (hv.part hr hv') h
  | case4 | case6 => cases h

theorem Value.OnLine.convert {v w : Value} (hv : v.OnLine) {mark : Option Char}
    (h : v.convert r mark = .ok w) : w.OnLine := by
  have hconverted : ∀ {mark : Char} {quote : String → String}
      (_ : ∀ s, OneLine s.toList → OneLine (quote s).toList),
      (v.converted r mark quote).map Value.text = .ok w → w.OnLine := by
    intro mark quote hquote h
    obtain ⟨text, htext, rfl⟩ := map_eq_ok.1 h
    cases v with
    | text s =>
      cases htext
      exact hquote s hv
    | integer n =>
      exact oneLine_writeInt (mapError_eq_ok.1 htext)
    | object name => exact hr.convert htext
  unfold Value.convert at h
  split at h
  · injection h with h
    exact h ▸ hv
  · exact hconverted (fun _ hs => hs) h
  · exact hconverted (fun _ _ => Text.oneLine_quoteWith _ _) h
  · exact hconverted (fun _ _ => Text.oneLine_quoteWith _ _) h
  · cases h

/-- The value of a field is that of one of the fields or a part of it. -/
theorem onLine_of_fieldValue {fields : List (String × Value)} (hf : ∀ p ∈ fields, p.2.OnLine)
    {name : List Char} {v : Value} (h : fieldValue r fields name = .ok v) : v.OnLine := by
  unfold fieldValue at h
  obtain ⟨i, -, h⟩ := bind_eq_ok.1 h
  split at h
  · cases h
  · cases h
  · split at h
    · next v' hlookup =>
      obtain ⟨before, after, heq, -⟩ := List.lookup_eq_some_iff.1 hlookup
      have hmem : (String.ofList _, v') ∈ fields := heq ▸ List.mem_append_right _ List.mem_cons_self
      exact (hf _ hmem).followParts hr h
    · cases h

/-! ## Templates -/

omit hr in
/-- The specification of a field stands in the template. -/
theorem spec_subset_of_readField {cs : List Char} {field : Field} {length : ℕ}
    (h : readField cs = .ok (field, length)) : field.spec ⊆ cs := by
  have hcut : ∀ start k : ℕ, (cs.drop start).take k ⊆ cs := by
    intro start k c hc
    exact List.mem_of_mem_drop (List.mem_of_mem_take hc)
  obtain ⟨n, -, h⟩ := bind_eq_ok.1 h
  dsimp only at h
  split at h
  · cases h
    exact List.nil_subset _
  · split at h
    · obtain ⟨k, -, h⟩ := bind_eq_ok.1 h
      cases h
      exact hcut _ _
    · split at h
      · split at h
        · split at h
          · obtain ⟨k, -, h⟩ := bind_eq_ok.1 h
            cases h
            exact hcut _ _
          · split at h
            · cases h
              exact List.nil_subset _
            · cases h
        · cases h
      · cases h
        exact List.nil_subset _

theorem oneLine_expandWith {fields : List (String × Value)} (hf : ∀ p ∈ fields, p.2.OnLine)
    {expandSpec : List Char → Except TemplateError (List Char)}
    (hspec : ∀ cs us, OneLine cs → expandSpec cs = .ok us → OneLine us) {cs us : List Char}
    (hcs : OneLine cs) (h : expandWith r expandSpec fields cs = .ok us) : OneLine us := by
  fun_induction expandWith r expandSpec fields cs generalizing us with
  | case1 =>
    injection h with h
    exact h ▸ oneLine_nil
  | case2 | case6 | case7 => cases h
  | case3 rest ih | case5 rest _ ih =>
    -- a doubled brace stands for one
    obtain ⟨us', hus', rfl⟩ := map_eq_ok.1 h
    have hrest := (oneLine_cons.1 (oneLine_cons.1 hcs).2).2
    exact oneLine_cons.2 ⟨by decide, ih hrest hus'⟩
  | case8 c rest _ _ ih =>
    obtain ⟨us', hus', rfl⟩ := map_eq_ok.1 h
    obtain ⟨hc, hrest⟩ := oneLine_cons.1 hcs
    exact oneLine_cons.2 ⟨hc, ih hrest hus'⟩
  | case4 d rest _ ih =>
    obtain ⟨⟨field, length⟩, hfield, h⟩ := bind_eq_ok.1 h
    obtain ⟨v, hvalue, h⟩ := bind_eq_ok.1 h
    obtain ⟨v', hconvert, h⟩ := bind_eq_ok.1 h
    have hfrom := (oneLine_cons.1 hcs).2
    have hwritten : OneLine field.spec := hfrom.of_subset (spec_subset_of_readField hfield)
    have honLine : v'.OnLine := (onLine_of_fieldValue hr hf hvalue).convert hr hconvert
    have hjoined : ∀ spec, OneLine spec → ((do
        let text ← v'.format r spec
        let after ← expandWith r expandSpec fields ((d :: rest).drop length)
        .ok (text ++ after)) : Except TemplateError (List Char)) = .ok us → OneLine us := by
      intro spec hline h
      obtain ⟨text, htext, h⟩ := bind_eq_ok.1 h
      obtain ⟨after, hafter, h⟩ := bind_eq_ok.1 h
      injection h with h
      exact h ▸ oneLine_append.2
        ⟨honLine.format hr hline htext, ih length (hfrom.drop _) hafter⟩
    dsimp only at h
    split at h
    · obtain ⟨spec, hexpand, h⟩ := bind_eq_ok.1 h
      exact hjoined spec (hspec _ _ hwritten hexpand) h
    · exact hjoined field.spec hwritten h

/-- A template on one line, filled in with values on one line, is a text on one line. -/
theorem oneLine_expand {fields : List (String × Value)} (hf : ∀ p ∈ fields, p.2.OnLine)
    {template text : String} (ht : OneLine template.toList)
    (h : expand r fields template = .ok text) : OneLine text.toList := by
  obtain ⟨us, hus, rfl⟩ := map_eq_ok.1 h
  rw [String.toList_ofList]
  refine oneLine_expandWith hr hf (fun cs us hcs hexpand => ?_) ht hus
  exact oneLine_expandWith hr hf (fun _ _ _ herror => by cases herror) hcs hexpand

end

end Template

end GaussianIntegrals
