/-
  Arithmetic of the generated code: variables and matrix entries, the four operations,
  powers, and the grammar that says which token sequences stand for which arithmetic.

  A sum has terms with `+` or `-` between them, a term has factors with `*` between them, a
  factor is a primary with signs in front of it and at most one exponent behind it, and a
  primary is a numeral, a variable, an entry or a sum in parentheses.
-/
import GaussianIntegrals.Proofs.Code.Numeral

namespace GaussianIntegrals.Code

/-- An index of a matrix entry: a numeral or a variable, negated or not. -/
structure Index where
  negative : Bool
  word : List Char
  deriving DecidableEq, Repr

/-- A variable, or an entry of a matrix if there are indices. -/
structure Reference where
  name : List Char
  indices : List Index
  deriving DecidableEq, Repr

/-- Arithmetic on numbers and references. -/
inductive Arith where
  | number (value : ℚ)
  | reference (r : Reference)
  | neg (a : Arith)
  | power (base exponent : Arith)
  | mul (a b : Arith)
  | add (a b : Arith)
  | sub (a b : Arith)

/-- The value, where every reference has one; an exponent is an integer, and zero has no
negative power. -/
def Arith.value (lookup : Reference → Option ℚ) : Arith → Option ℚ
  | .number v => some v
  | .reference r => lookup r
  | .neg a => do some (-(← a.value lookup))
  | .power a b => do
    let x ← a.value lookup
    let k ← b.value lookup
    if k.den = 1 ∧ (x = 0 → 0 ≤ k) then some (x ^ k.num) else none
  | .mul a b => do some ((← a.value lookup) * (← b.value lookup))
  | .add a b => do some ((← a.value lookup) + (← b.value lookup))
  | .sub a b => do some ((← a.value lookup) - (← b.value lookup))

/-! ## References as text -/

/-- The characters of an index. -/
def Index.chars (i : Index) : List Char := if i.negative then '-' :: i.word else i.word

/-- The characters of indices, commas between them. -/
def indexChars : List Index → List Char
  | [] => []
  | [i] => i.chars
  | i :: is => i.chars ++ ',' :: indexChars is

/-- The characters of a reference. -/
def Reference.chars (r : Reference) : List Char :=
  if r.indices.isEmpty then r.name else r.name ++ '(' :: (indexChars r.indices ++ [')'])

/-- The text of a reference. -/
def Reference.text (r : Reference) : String := String.ofList r.chars

/-- The tokens of an index. -/
def Index.tokens (i : Index) : List Token :=
  if i.negative then [.minus, .word i.word] else [.word i.word]

/-- The tokens of indices, commas between them. -/
def indexTokens : List Index → List Token
  | [] => []
  | [i] => i.tokens
  | i :: is => i.tokens ++ .comma :: indexTokens is

/-- The tokens of a reference. -/
def Reference.tokens (r : Reference) : List Token :=
  if r.indices.isEmpty then [.word r.name]
  else .word r.name :: .opening :: (indexTokens r.indices ++ [.closing])

/-- The text is made of characters of words, at least one. -/
def IsWord (w : List Char) : Prop := w ≠ [] ∧ ∀ c ∈ w, isWordChar c = true

theorem isWord_of_all {w : List Char} (h : (!w.isEmpty && w.all isWordChar) = true) :
    IsWord w := by
  simp only [Bool.and_eq_true, Bool.not_eq_true', List.isEmpty_eq_false_iff, List.all_eq_true] at h
  exact h

/-- The name is a name and all indices are words. -/
structure Reference.WellFormed (r : Reference) : Prop where
  name_isName : isName r.name = true
  name_isWord : IsWord r.name
  indices_isWord : ∀ i ∈ r.indices, IsWord i.word

theorem IsWord.scans {w : List Char} (h : IsWord w) : Scans w [.word w] := by
  obtain ⟨hne, hall⟩ := h
  obtain ⟨c, cs, rfl⟩ := List.exists_cons_of_ne_nil hne
  have hc := hall c List.mem_cons_self
  exact Scans.word hc
    (extends?_of_all (by simpa using hc) fun d hd => hall d (List.mem_cons_of_mem c hd))

theorem Index.scans {i : Index} (h : IsWord i.word) : Scans i.chars i.tokens := by
  unfold Index.chars Index.tokens
  split
  · exact h.scans.negated
  · exact h.scans

theorem Scans.comma {s t : List Char} {ts us : List Token} (hs : Scans s ts) (ht : Scans t us) :
    Scans (s ++ ',' :: t) (ts ++ .comma :: us) := by
  have hop : ∀ c cs, c ≠ '*' → scan [] ([','] ++ c :: cs) = [.comma] ++ scan [] (c :: cs) := by
    intro c cs _
    rw [List.singleton_append, scan_nil_cons, scan_symbol (by decide) (by decide)]
    rfl
  simpa using Scans.joined (by decide) hop hs ht

theorem scans_indices {is : List Index} (hne : is ≠ []) (h : ∀ i ∈ is, IsWord i.word) :
    Scans (indexChars is) (indexTokens is) := by
  induction is with
  | nil => exact absurd rfl hne
  | cons i is ih =>
    have hi := Index.scans (h i List.mem_cons_self)
    cases is with
    | nil => exact hi
    | cons j js =>
      exact hi.comma (ih (by simp) fun k hk => h k (List.mem_cons_of_mem i hk))

theorem Reference.WellFormed.scans {r : Reference} (h : r.WellFormed) :
    Scans r.chars r.tokens := by
  unfold Reference.chars Reference.tokens
  split
  · exact h.name_isWord.scans
  · next hne =>
    have his := scans_indices (by simpa using hne) h.indices_isWord
    have hparen : Scans (indexChars r.indices ++ [')']) (indexTokens r.indices ++ [.closing]) :=
      his.closed (by decide) (by decide)
    have hop : ∀ c cs, c ≠ '*' →
        scan [] (['('] ++ c :: cs) = [.opening] ++ scan [] (c :: cs) := by
      intro c cs _
      rw [List.singleton_append, scan_nil_cons, scan_symbol (by decide) (by decide)]
      rfl
    simpa using Scans.joined (by decide) hop h.name_isWord.scans hparen

/-! ## The grammar -/

/-- What a sequence of tokens is read as. -/
inductive Level where
  | sum
  | term
  | factor
  | primary
  deriving DecidableEq, Repr

/-- The tokens stand for the arithmetic, read at the level. -/
inductive Reads : Level → List Token → Arith → Prop where
  | number {w v} : isName w = false → numeral? w = some v → Reads .primary [.word w] (.number v)
  | reference {r : Reference} : isName r.name = true → Reads .primary r.tokens (.reference r)
  | parentheses {ts a} : Reads .sum ts a → Reads .primary (.opening :: (ts ++ [.closing])) a
  | primary {ts a} : Reads .primary ts a → Reads .factor ts a
  | power {ts us a b} : Reads .primary ts a → Reads .primary us b →
      Reads .factor (ts ++ .power :: us) (.power a b)
  | negative {ts a} : Reads .factor ts a → Reads .factor (.minus :: ts) (.neg a)
  | positive {ts a} : Reads .factor ts a → Reads .factor (.plus :: ts) a
  | factor {ts a} : Reads .factor ts a → Reads .term ts a
  | times {ts us a b} : Reads .term ts a → Reads .factor us b →
      Reads .term (ts ++ .times :: us) (.mul a b)
  | term {ts a} : Reads .term ts a → Reads .sum ts a
  | plus {ts us a b} : Reads .sum ts a → Reads .term us b →
      Reads .sum (ts ++ .plus :: us) (.add a b)
  | minus {ts us a b} : Reads .sum ts a → Reads .term us b →
      Reads .sum (ts ++ .minus :: us) (.sub a b)

/-! ## Terms after a sign and after another term -/

/-- A sign in front of a term is one in front of its first factor. -/
theorem Reads.sign_term {t : Token} {c : ℚ}
    (hsign : ∀ {ts a}, Reads .factor ts a → ∃ b, Reads .factor (t :: ts) b ∧
      ∀ lookup x, a.value lookup = some x → b.value lookup = some (c * x))
    {ts : List Token} {a : Arith} (h : Reads .term ts a) :
    ∃ b, Reads .term (t :: ts) b ∧
      ∀ lookup x, a.value lookup = some x → b.value lookup = some (c * x) := by
  generalize hl : Level.term = l at h
  induction h with
  | factor ha =>
    obtain ⟨b, hb, hbv⟩ := hsign ha
    exact ⟨b, .factor hb, hbv⟩
  | @times ts us a b _ hb iha _ =>
    obtain ⟨d, hd, hdv⟩ := iha hl
    refine ⟨_, .times hd hb, fun lookup x hx => ?_⟩
    simp only [Arith.value, Option.bind_eq_bind, Option.bind_eq_some_iff] at hx ⊢
    obtain ⟨y, hy, z, hz, hyz⟩ := hx
    injection hyz with hyz
    exact ⟨c * y, hdv lookup y hy, z, hz, by rw [mul_assoc, hyz]⟩
  | _ => cases hl

theorem Reads.neg_term {ts : List Token} {a : Arith} (h : Reads .term ts a) :
    ∃ b, Reads .term (.minus :: ts) b ∧
      ∀ lookup x, a.value lookup = some x → b.value lookup = some (-1 * x) :=
  sign_term (fun {_ a} ha => ⟨.neg a, .negative ha, fun lookup x hx => by
    simp [Arith.value, hx]⟩) h

theorem Reads.pos_term {ts : List Token} {a : Arith} (h : Reads .term ts a) :
    ∃ b, Reads .term (.plus :: ts) b ∧
      ∀ lookup x, a.value lookup = some x → b.value lookup = some (1 * x) :=
  sign_term (fun {_ a} ha => ⟨a, .positive ha, fun lookup x hx => by rw [hx, one_mul]⟩) h

/-- A term times a term has the factors of both. -/
theorem Reads.mul_term {ts us : List Token} {a b : Arith} (ha : Reads .term ts a)
    (hb : Reads .term us b) :
    ∃ c, Reads .term (ts ++ .times :: us) c ∧
      ∀ lookup x y, a.value lookup = some x → b.value lookup = some y →
        c.value lookup = some (x * y) := by
  generalize hl : Level.term = l at hb
  induction hb with
  | factor hb =>
    refine ⟨_, .times ha hb, fun lookup x y hx hy => ?_⟩
    simp [Arith.value, hx, hy]
  | @times us vs b d _ hd ihb _ =>
    obtain ⟨c, hc, hcv⟩ := ihb hl
    refine ⟨.mul c d, ?_, fun lookup x y hx hy => ?_⟩
    · have h := Reads.times hc hd
      rwa [List.append_assoc, List.cons_append] at h
    · simp only [Arith.value, Option.bind_eq_bind, Option.bind_eq_some_iff] at hy ⊢
      obtain ⟨z, hz, w, hw, hzw⟩ := hy
      injection hzw with hzw
      exact ⟨x * z, hcv lookup x z hx hz, w, hw, by rw [mul_assoc, hzw]⟩
  | _ => cases hl

end GaussianIntegrals.Code
