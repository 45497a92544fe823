/-
  Lexemes of the generated code, by longest match: words (names, numerals with point and
  exponent), operators, parentheses, the comma and the assignment sign. Blanks only separate.

  `Scans s ts` says that `s` stands for the tokens `ts` in front of any text that does not
  carry on its last lexeme. It composes along the text, so texts are scanned as they are put
  together and never as a whole.
-/
import Mathlib.Data.List.Basic

namespace GaussianIntegrals.Code

/-- A lexical unit. -/
inductive Token where
  | word (chars : List Char)
  | plus
  | minus
  | times
  | power
  | opening
  | closing
  | comma
  | equals
  /-- A character that no unit starts with. -/
  | stray (c : Char)
  deriving DecidableEq, Repr

/-- The characters that names begin with: letters, the underscore and all beyond ASCII. -/
def isLetter (c : Char) : Bool := c.isAlpha || c == '_' || decide (127 < c.toNat)

/-- The characters of names and numerals. -/
def isWordChar (c : Char) : Bool := isLetter c || c.isDigit || c == '.'

/-- The characters of a numeral before the exponent mark. -/
def startsNumeral (c : Char) : Bool := c.isDigit || c == '.'

/-- A numeral up to its exponent mark, which a sign may follow. -/
def awaitsExponent (w : List Char) : Bool :=
  w.head?.any startsNumeral && w.getLast? == some 'e'

/-- The character belongs to the lexeme that the characters before it have begun. -/
def continues (w : List Char) (c : Char) : Bool :=
  (w == ['*'] && c == '*') ||
    (w.head?.any isWordChar && (isWordChar c || ((c == '+' || c == '-') && awaitsExponent w)))

/-- The token of one character that is not part of a word. -/
def symbolToken : Char → List Token
  | ' ' => []
  | '+' => [.plus]
  | '-' => [.minus]
  | '*' => [.times]
  | '(' => [.opening]
  | ')' => [.closing]
  | ',' => [.comma]
  | '=' => [.equals]
  | c => [.stray c]

/-- The token of a complete lexeme. -/
def lexeme : List Char → List Token
  | [] => []
  | ['*', '*'] => [.power]
  | c :: cs => if isWordChar c then [.word (c :: cs)] else symbolToken c

/-- The tokens of a text of which a lexeme has been begun. -/
def scan (w : List Char) : List Char → List Token
  | [] => lexeme w
  | c :: cs => if continues w c then scan (w ++ [c]) cs else lexeme w ++ scan [c] cs

/-- The tokens of a text. -/
def tokens (s : String) : List Token := scan [] s.toList

theorem scan_nil_cons (c : Char) (cs : List Char) : scan [] (c :: cs) = scan [c] cs := by
  simp [scan, continues, lexeme]

/-- No lexeme goes on after a character outside words, other than the star. -/
theorem scan_symbol {c : Char} (hw : isWordChar c = false) (hs : c ≠ '*') (cs : List Char) :
    scan [c] cs = symbolToken c ++ scan [] cs := by
  cases cs with
  | nil => simp [scan, lexeme, hw]
  | cons d ds => simp [scan, continues, lexeme, hw, hs]

/-- The characters in front of which any lexeme but the star ends. -/
def isBreak (c : Char) : Bool := !isWordChar c && c != '+' && c != '-'

/-- The text is empty or begins with a break. -/
def Stops (rest : List Char) : Prop := ∀ c ∈ rest.head?, isBreak c = true

theorem stops_nil : Stops [] := fun _ hc => by cases hc

theorem stops_cons {c : Char} (h : isBreak c = true) (cs : List Char) : Stops (c :: cs) := by
  intro d hd
  rw [List.head?_cons, Option.mem_some_iff] at hd
  exact hd ▸ h

/-- The text stands for the tokens wherever a break or nothing follows it, also after a
star. -/
structure Scans (s : List Char) (ts : List Token) : Prop where
  begins : ∃ c cs, s = c :: cs ∧ c ≠ '*'
  scan_append : ∀ rest, Stops rest → scan [] (s ++ rest) = ts ++ scan [] rest

theorem Scans.tokens_eq {s : String} {ts : List Token} (h : Scans s.toList ts) :
    tokens s = ts := by
  have hs := h.scan_append [] stops_nil
  rw [List.append_nil] at hs
  rw [tokens, hs, scan, lexeme, List.append_nil]

/-! ## Words -/

/-- The characters go on, one by one, with the lexeme begun. -/
def extends? (w : List Char) : List Char → Bool
  | [] => true
  | c :: cs => continues w c && extends? (w ++ [c]) cs

theorem scan_extend {w cs : List Char} (h : extends? w cs = true) (rest : List Char) :
    scan w (cs ++ rest) = scan (w ++ cs) rest := by
  induction cs generalizing w with
  | nil => rw [List.nil_append, List.append_nil]
  | cons c cs ih =>
    rw [extends?, Bool.and_eq_true] at h
    rw [List.cons_append, scan, if_pos h.1, ih h.2, List.append_assoc, List.singleton_append]

theorem extends?_append {w us vs : List Char} (hu : extends? w us = true)
    (hv : extends? (w ++ us) vs = true) : extends? w (us ++ vs) = true := by
  induction us generalizing w with
  | nil => rwa [List.append_nil] at hv
  | cons c us ih =>
    rw [extends?, Bool.and_eq_true] at hu
    rw [List.cons_append, extends?, hu.1, Bool.true_and]
    exact ih hu.2 (by rwa [List.append_assoc, List.singleton_append])

/-- Characters of words go on with any word. -/
theorem extends?_of_all {w cs : List Char} (hw : w.head?.any isWordChar = true)
    (hc : ∀ c ∈ cs, isWordChar c = true) : extends? w cs = true := by
  induction cs generalizing w with
  | nil => rfl
  | cons c cs ih =>
    have hcs : extends? (w ++ [c]) cs = true := by
      apply ih
      · cases w with
        | nil => cases hw
        | cons d ds => exact hw
      · exact fun d hd => hc d (List.mem_cons_of_mem c hd)
    simp [extends?, continues, hw, hc c List.mem_cons_self, hcs]

/-- A word that nothing goes on with. -/
theorem scan_word {c : Char} (hc : isWordChar c = true) (cs : List Char) {rest : List Char}
    (hr : ∀ d ∈ rest.head?, continues (c :: cs) d = false) :
    scan (c :: cs) rest = .word (c :: cs) :: scan [] rest := by
  have hl : lexeme (c :: cs) = [.word (c :: cs)] := by
    unfold lexeme
    split
    · next h => cases h
    · next h =>
      injection h with h _
      rw [h] at hc
      exact absurd hc (by decide)
    · next h =>
      injection h with h1 h2
      rw [← h1, ← h2, if_pos hc]
  cases rest with
  | nil => rw [scan, hl, scan, lexeme]
  | cons d ds =>
    rw [scan, hr d rfl, if_neg Bool.false_ne_true, hl, scan_nil_cons]
    rfl

/-- No word goes on after a break. -/
theorem continues_break {c d : Char} (hc : isWordChar c = true) (hd : isBreak d = true)
    (cs : List Char) : continues (c :: cs) d = false := by
  have hstar : c ≠ '*' := by
    rintro rfl
    exact absurd hc (by decide)
  rw [isBreak] at hd
  simp only [Bool.and_eq_true, Bool.not_eq_true', bne_iff_ne, ne_eq] at hd
  simp [continues, hd.1.1, hd.1.2, hd.2, hstar]

theorem Scans.word {c : Char} {cs : List Char} (hc : isWordChar c = true)
    (hcs : extends? [c] cs = true) : Scans (c :: cs) [.word (c :: cs)] where
  begins := by
    refine ⟨c, cs, rfl, ?_⟩
    rintro rfl
    exact absurd hc (by decide)
  scan_append := by
    intro rest hr
    rw [List.cons_append, scan_nil_cons, scan_extend hcs, List.singleton_append,
      scan_word hc cs fun d hd => continues_break hc (hr d hd) cs]
    rfl

/-! ## Operators and parentheses -/

/-- A symbol in front of a text. -/
theorem Scans.prefixed {c : Char} {s : List Char} {ts : List Token} (hw : isWordChar c = false)
    (hs : c ≠ '*') (h : Scans s ts) : Scans (c :: s) (symbolToken c ++ ts) where
  begins := ⟨c, s, rfl, hs⟩
  scan_append := by
    intro rest hr
    rw [List.cons_append, scan_nil_cons, scan_symbol hw hs, h.scan_append rest hr,
      List.append_assoc]

/-- A break after a text, other than the star. -/
theorem Scans.closed {c : Char} {s : List Char} {ts : List Token} (hb : isBreak c = true)
    (hs : c ≠ '*') (h : Scans s ts) : Scans (s ++ [c]) (ts ++ symbolToken c) where
  begins := by
    obtain ⟨d, ds, rfl, hd⟩ := h.begins
    exact ⟨d, ds ++ [c], rfl, hd⟩
  scan_append := by
    intro rest hr
    have hw : isWordChar c = false := by
      simp only [isBreak, Bool.and_eq_true, Bool.not_eq_true'] at hb
      exact hb.1.1
    rw [List.append_assoc, List.singleton_append, h.scan_append _ (stops_cons hb rest),
      scan_nil_cons, scan_symbol hw hs, List.append_assoc]

theorem Scans.parenthesized {s : List Char} {ts : List Token} (h : Scans s ts) :
    Scans ('(' :: (s ++ [')'])) (.opening :: (ts ++ [.closing])) :=
  (h.closed (by decide : isBreak ')' = true) (by decide)).prefixed (by decide) (by decide)

theorem Scans.negated {s : List Char} {ts : List Token} (h : Scans s ts) :
    Scans ('-' :: s) (.minus :: ts) :=
  h.prefixed (by decide) (by decide)

/-- Two texts with an operator between them that starts with a break and is complete in front
of anything but a star. -/
theorem Scans.joined {op : List Char} {us : List Token} (hb : op.head?.any isBreak = true)
    (hop : ∀ c cs, c ≠ '*' → scan [] (op ++ c :: cs) = us ++ scan [] (c :: cs))
    {s t : List Char} {ts vs : List Token} (hs : Scans s ts) (ht : Scans t vs) :
    Scans (s ++ op ++ t) (ts ++ us ++ vs) where
  begins := by
    obtain ⟨d, ds, rfl, hd⟩ := hs.begins
    exact ⟨d, ds ++ op ++ t, rfl, hd⟩
  scan_append := by
    intro rest hr
    obtain ⟨c, cs, rfl, hc⟩ := ht.begins
    have hstop : Stops (op ++ (c :: cs ++ rest)) := by
      cases op with
      | nil => cases hb
      | cons o op => exact stops_cons hb _
    rw [List.append_assoc, List.append_assoc, hs.scan_append _ hstop, List.cons_append,
      hop c _ hc, ← List.cons_append, ht.scan_append rest hr]
    simp only [List.append_assoc]

theorem scan_times {c : Char} (hc : c ≠ '*') (cs : List Char) :
    scan [] (['*'] ++ c :: cs) = [.times] ++ scan [] (c :: cs) := by
  have hstar : isWordChar '*' = false := by decide
  have hstop : continues ['*'] c = false := by simp [continues, hc, hstar]
  rw [List.singleton_append, scan_nil_cons, scan, hstop, scan_nil_cons]
  rfl

theorem scan_power (c : Char) (cs : List Char) :
    scan [] (['*', '*'] ++ c :: cs) = [.power] ++ scan [] (c :: cs) := by
  have hstar : isWordChar '*' = false := by decide
  have hgo : continues ['*'] '*' = true := by decide
  have hstop : continues ['*', '*'] c = false := by simp [continues, hstar]
  rw [List.cons_append, scan_nil_cons, List.singleton_append, scan, hgo, if_pos rfl,
    List.singleton_append, scan, hstop, scan_nil_cons]
  rfl

theorem Scans.times {s t : List Char} {ts us : List Token} (hs : Scans s ts) (ht : Scans t us) :
    Scans (s ++ '*' :: t) (ts ++ .times :: us) := by
  simpa using Scans.joined (by decide) (fun _ cs hc => scan_times hc cs) hs ht

theorem Scans.power {s t : List Char} {ts us : List Token} (hs : Scans s ts) (ht : Scans t us) :
    Scans (s ++ '*' :: '*' :: t) (ts ++ .power :: us) := by
  simpa using Scans.joined (by decide) (fun c cs _ => scan_power c cs) hs ht

/-- The scan of an operator of single characters between blanks. -/
theorem scan_spaced {o : Char} (hw : isWordChar o = false) (hs : o ≠ '*') (cs : List Char) :
    scan [] ([' ', o, ' '] ++ cs) = symbolToken o ++ scan [] cs := by
  have hblank : ∀ ds, scan [' '] ds = scan [] ds := fun ds => by
    rw [scan_symbol (by decide) (by decide)]
    rfl
  rw [List.cons_append, scan_nil_cons, hblank, List.cons_append, scan_nil_cons, scan_symbol hw hs,
    List.singleton_append, scan_nil_cons, hblank]

theorem Scans.spaced {o : Char} (hw : isWordChar o = false) (ho : o ≠ '*') {s t : List Char}
    {ts us : List Token} (hs : Scans s ts) (ht : Scans t us) :
    Scans (s ++ [' ', o, ' '] ++ t) (ts ++ symbolToken o ++ us) := by
  have hb : ([' ', o, ' '].head?.any isBreak) = true := rfl
  exact Scans.joined hb (fun c cs _ => scan_spaced hw ho (c :: cs)) hs ht

/-! ## In front of signs -/

/-- The text stands for the tokens in front of signs too, wherever no character of words follows
it. -/
structure ScansSigned (s : List Char) (ts : List Token) : Prop where
  begins : ∃ c cs, s = c :: cs ∧ c ≠ '*'
  scan_append : ∀ rest, (∀ c ∈ rest.head?, isWordChar c = false) →
    scan [] (s ++ rest) = ts ++ scan [] rest

namespace ScansSigned

theorem tokens_eq {s : String} {ts : List Token} (h : ScansSigned s.toList ts) :
    tokens s = ts := by
  have hs := h.scan_append [] fun _ hc => by cases hc
  rw [List.append_nil] at hs
  rw [tokens, hs, scan, lexeme, List.append_nil]

/-- A word that awaits no exponent. -/
theorem word {c : Char} {cs : List Char} (hc : isWordChar c = true)
    (hcs : extends? [c] cs = true) (hend : awaitsExponent (c :: cs) = false) :
    ScansSigned (c :: cs) [.word (c :: cs)] where
  begins := (Scans.word hc hcs).begins
  scan_append := by
    intro rest hr
    have hstar : c ≠ '*' := by
      rintro rfl
      exact absurd hc (by decide)
    rw [List.cons_append, scan_nil_cons, scan_extend hcs, List.singleton_append,
      scan_word hc cs fun d hd => by simp [continues, hr d hd, hend, hstar]]
    rfl

theorem parenthesized {s : List Char} {ts : List Token} (h : ScansSigned s ts) :
    ScansSigned ('(' :: (s ++ [')'])) (.opening :: (ts ++ [.closing])) where
  begins := ⟨'(', s ++ [')'], rfl, by decide⟩
  scan_append := by
    intro rest _
    have hclose : scan [] (s ++ ')' :: rest) = ts ++ scan [] (')' :: rest) :=
      h.scan_append _ (by simpa using (by decide : isWordChar ')' = false))
    rw [List.cons_append, List.append_assoc, List.singleton_append, scan_nil_cons,
      scan_symbol (by decide) (by decide), hclose, scan_nil_cons,
      scan_symbol (by decide) (by decide), List.cons_append, List.append_assoc]
    rfl

theorem negated {s : List Char} {ts : List Token} (h : ScansSigned s ts) :
    ScansSigned ('-' :: s) (.minus :: ts) where
  begins := ⟨'-', s, rfl, by decide⟩
  scan_append := by
    intro rest hr
    rw [List.cons_append, scan_nil_cons, scan_symbol (by decide) (by decide),
      h.scan_append rest hr]
    rfl

/-- Two texts with an operator between them that no character of words begins. -/
theorem joined {op : List Char} {us : List Token}
    (hb : op.head?.any (!isWordChar ·) = true)
    (hop : ∀ c cs, c ≠ '*' → scan [] (op ++ c :: cs) = us ++ scan [] (c :: cs))
    {s t : List Char} {ts vs : List Token} (hs : ScansSigned s ts) (ht : ScansSigned t vs) :
    ScansSigned (s ++ op ++ t) (ts ++ us ++ vs) where
  begins := by
    obtain ⟨d, ds, rfl, hd⟩ := hs.begins
    exact ⟨d, ds ++ op ++ t, rfl, hd⟩
  scan_append := by
    intro rest hr
    obtain ⟨c, cs, rfl, hc⟩ := ht.begins
    have hstop : ∀ o ∈ (op ++ (c :: cs ++ rest)).head?, isWordChar o = false := by
      cases op with
      | nil => cases hb
      | cons o op => simpa using hb
    rw [List.append_assoc, List.append_assoc, hs.scan_append _ hstop, List.cons_append,
      hop c _ hc, ← List.cons_append, ht.scan_append rest hr]
    simp only [List.append_assoc]

end ScansSigned

end GaussianIntegrals.Code
