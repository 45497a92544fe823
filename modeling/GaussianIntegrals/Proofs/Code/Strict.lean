/-
  The strict grammar of expressions, in which a minus sign outside numerals is the first symbol of
  a sum or stands between two terms. It is a part of the grammar of `Reads`, which takes signs in
  front of any factor (`Strict.exists_reads`); compilers of the generated code need not.

  In the strict grammar no operator follows another one (`Strict.isChain`) and all parentheses are
  closed (`Strict.balanced`). Texts are followed as they are put together: `StrictText l s` says
  that the characters scan to tokens of the grammar, `SignedTerm s` that they do so but for a
  leading minus sign.
-/
import GaussianIntegrals.Proofs.Code.Arith
import Mathlib.Data.List.Chain

namespace GaussianIntegrals.Code

/-! ## The grammar -/

/-- No index of the reference has a sign. -/
structure Reference.Plain (r : Reference) : Prop extends r.WellFormed where
  unsigned : ∀ i ∈ r.indices, i.negative = false

/-- The tokens belong to the strict grammar, read at the level. -/
inductive Strict : Level → List Token → Prop where
  | numeral {w v} : numeral? w = some v → Strict .primary [.word w]
  | reference {r : Reference} : r.Plain → Strict .primary r.tokens
  | parentheses {ts} : Strict .sum ts → Strict .primary (.opening :: (ts ++ [.closing]))
  | primary {ts} : Strict .primary ts → Strict .factor ts
  | power {ts us} : Strict .primary ts → Strict .primary us → Strict .factor (ts ++ .power :: us)
  | factor {ts} : Strict .factor ts → Strict .term ts
  | times {ts us} : Strict .term ts → Strict .factor us → Strict .term (ts ++ .times :: us)
  | term {ts} : Strict .term ts → Strict .sum ts
  | negated {ts} : Strict .term ts → Strict .sum (.minus :: ts)
  | plus {ts us} : Strict .sum ts → Strict .term us → Strict .sum (ts ++ .plus :: us)
  | minus {ts us} : Strict .sum ts → Strict .term us → Strict .sum (ts ++ .minus :: us)

/-- A term times a term has the factors of both. -/
theorem Strict.mul_term {ts us : List Token} (hts : Strict .term ts) (hus : Strict .term us) :
    Strict .term (ts ++ .times :: us) := by
  generalize hl : Level.term = l at hus
  induction hus with
  | factor hus => exact .times hts hus
  | @times us vs _ hvs ihus _ =>
    have h := Strict.times (ihus hl) hvs
    rwa [List.append_assoc, List.cons_append] at h
  | _ => cases hl

/-- The strict grammar is a part of the grammar. -/
theorem Strict.exists_reads {l : Level} {ts : List Token} (h : Strict l ts) :
    ∃ a, Reads l ts a := by
  induction h with
  | numeral h => exact ⟨_, .number (isName_of_numeral h) h⟩
  | reference h => exact ⟨_, .reference h.name_isName⟩
  | parentheses _ ih => exact ih.imp fun _ => .parentheses
  | primary _ ih => exact ih.imp fun _ => .primary
  | factor _ ih => exact ih.imp fun _ => .factor
  | term _ ih => exact ih.imp fun _ => .term
  | negated _ ih =>
    obtain ⟨a, ha⟩ := ih
    obtain ⟨b, hb, -⟩ := ha.neg_term
    exact ⟨b, .term hb⟩
  | power _ _ ihs iht =>
    obtain ⟨a, ha⟩ := ihs
    obtain ⟨b, hb⟩ := iht
    exact ⟨_, .power ha hb⟩
  | times _ _ ihs iht =>
    obtain ⟨a, ha⟩ := ihs
    obtain ⟨b, hb⟩ := iht
    exact ⟨_, .times ha hb⟩
  | plus _ _ ihs iht =>
    obtain ⟨a, ha⟩ := ihs
    obtain ⟨b, hb⟩ := iht
    exact ⟨_, .plus ha hb⟩
  | minus _ _ ihs iht =>
    obtain ⟨a, ha⟩ := ihs
    obtain ⟨b, hb⟩ := iht
    exact ⟨_, .minus ha hb⟩

theorem Reference.Plain.indexTokens {is : List Index} (h : ∀ i ∈ is, i.negative = false) :
    ∀ t ∈ indexTokens is, t = .comma ∨ ∃ w, t = .word w := by
  have htokens : ∀ i : Index, i.negative = false → i.tokens = [.word i.word] := fun i hi => by
    rw [Index.tokens, if_neg (Bool.eq_false_iff.1 hi)]
  induction is with
  | nil => simp [Code.indexTokens]
  | cons i is ih =>
    rw [List.forall_mem_cons] at h
    cases is with
    | nil => simp [Code.indexTokens, htokens i h.1]
    | cons j js =>
      intro t ht
      simp only [Code.indexTokens, htokens i h.1, List.singleton_append, List.mem_cons] at ht
      obtain rfl | rfl | ht := ht
      · exact .inr ⟨_, rfl⟩
      · exact .inl rfl
      · exact ih h.2 t ht

/-! ## Operators apart -/

/-- The operators of arithmetic. -/
def Token.isOperator : Token → Bool
  | .plus | .minus | .times | .power => true
  | _ => false

/-- Not both are operators. -/
def Apart (t u : Token) : Prop := t.isOperator = false ∨ u.isOperator = false

/-- Operators stand apart, and none is at the end. -/
structure EndsOperand (ts : List Token) : Prop where
  ne_nil : ts ≠ []
  isChain : ts.IsChain Apart
  last : ∀ t ∈ ts.getLast?, t.isOperator = false

/-- There is none at the beginning either. -/
structure IsOperand (ts : List Token) : Prop extends EndsOperand ts where
  first : ∀ t ∈ ts.head?, t.isOperator = false

theorem IsOperand.of_forall {ts : List Token} (hne : ts ≠ [])
    (h : ∀ t ∈ ts, t.isOperator = false) : IsOperand ts where
  ne_nil := hne
  isChain := (List.pairwise_of_forall_mem_list fun t ht _ _ => Or.inl (h t ht)).isChain
  last t ht := h t (List.mem_of_mem_getLast? ht)
  first t ht := h t (List.mem_of_mem_head? ht)

/-- An operator in front of an operand. -/
theorem IsOperand.negated {us : List Token} (hus : IsOperand us) (t : Token) :
    EndsOperand (t :: us) where
  ne_nil := List.cons_ne_nil t us
  isChain := List.isChain_cons.2 ⟨fun u hu => .inr (hus.first u hu), hus.isChain⟩
  last u hu := by
    rw [List.getLast?_cons_of_ne_nil hus.ne_nil] at hu
    exact hus.last u hu

/-- An operator between operands. -/
theorem EndsOperand.operator {ts us : List Token} (hts : EndsOperand ts) (hus : IsOperand us)
    (t : Token) : EndsOperand (ts ++ t :: us) where
  ne_nil := List.append_ne_nil_of_left_ne_nil hts.ne_nil _
  isChain := List.isChain_append.2
    ⟨hts.isChain, (hus.negated t).isChain, fun u hu _ _ => .inl (hts.last u hu)⟩
  last u hu := by
    rw [List.getLast?_append_of_ne_nil _ (List.cons_ne_nil t us)] at hu
    exact (hus.negated t).last u hu

theorem IsOperand.operator {ts us : List Token} (hts : IsOperand ts) (hus : IsOperand us)
    (t : Token) : IsOperand (ts ++ t :: us) where
  toEndsOperand := hts.toEndsOperand.operator hus t
  first u hu := by
    rw [List.head?_append_of_ne_nil _ hts.ne_nil] at hu
    exact hts.first u hu

theorem EndsOperand.parenthesized {ts : List Token} (hts : EndsOperand ts) :
    IsOperand (.opening :: (ts ++ [.closing])) where
  ne_nil := List.cons_ne_nil _ _
  isChain := by
    refine List.isChain_cons.2 ⟨fun _ _ => .inl rfl, List.isChain_append.2 ⟨hts.isChain, ?_, ?_⟩⟩
    · exact List.isChain_singleton _
    · exact fun t ht _ _ => .inl (hts.last t ht)
  last t ht := by
    rw [← List.cons_append, List.getLast?_concat, Option.mem_some_iff] at ht
    rw [← ht]
    rfl
  first t ht := by
    rw [List.head?_cons, Option.mem_some_iff] at ht
    rw [← ht]
    rfl

theorem Reference.Plain.isOperand {r : Reference} (h : r.Plain) : IsOperand r.tokens := by
  unfold Reference.tokens
  split
  · exact .of_forall (List.cons_ne_nil _ _) (by simp [Token.isOperator])
  · refine .of_forall (List.cons_ne_nil _ _) ?_
    simp only [List.forall_mem_cons, List.forall_mem_append, List.not_mem_nil, false_imp_iff,
      implies_true, and_true]
    refine ⟨rfl, rfl, fun t ht => ?_, rfl⟩
    obtain rfl | ⟨w, rfl⟩ := Reference.Plain.indexTokens h.unsigned t ht <;> rfl

/-- Only a sum may begin with an operator. -/
def Operands : Level → List Token → Prop
  | .sum, ts => EndsOperand ts
  | _, ts => IsOperand ts

theorem Strict.operands {l : Level} {ts : List Token} (h : Strict l ts) : Operands l ts := by
  induction h with
  | numeral _ => exact IsOperand.of_forall (List.cons_ne_nil _ _) (by simp [Token.isOperator])
  | reference hr => exact hr.isOperand
  | parentheses _ ih => exact EndsOperand.parenthesized ih
  | primary _ ih => exact ih
  | power _ _ ihs iht => exact IsOperand.operator ihs iht _
  | factor _ ih => exact ih
  | times _ _ ihs iht => exact IsOperand.operator ihs iht _
  | term _ ih => exact IsOperand.toEndsOperand ih
  | negated _ ih => exact IsOperand.negated ih _
  | plus _ _ ihs iht => exact EndsOperand.operator ihs iht _
  | minus _ _ ihs iht => exact EndsOperand.operator ihs iht _

/-- No operator follows another one. -/
theorem Strict.isChain {ts : List Token} (h : Strict .sum ts) : ts.IsChain Apart :=
  EndsOperand.isChain h.operands

/-! ## Parentheses -/

/-- The number of open parentheses after the tokens, unless one is closed that is not open. -/
def openAfter : ℕ → List Token → Option ℕ
  | n, [] => some n
  | n, .opening :: ts => openAfter (n + 1) ts
  | 0, .closing :: _ => none
  | n + 1, .closing :: ts => openAfter n ts
  | n, _ :: ts => openAfter n ts

/-- Every parenthesis is closed, and none is closed that is not open. -/
def Balanced (ts : List Token) : Prop := openAfter 0 ts = some 0

/-- The tokens leave the open parentheses as they are. -/
def Closes (ts : List Token) : Prop :=
  ∀ n rest, openAfter n (ts ++ rest) = openAfter n rest

theorem Closes.append {ts us : List Token} (hts : Closes ts) (hus : Closes us) :
    Closes (ts ++ us) := by
  intro n rest
  rw [List.append_assoc, hts, hus]

theorem Closes.cons {t : Token} (ho : t ≠ .opening) (hc : t ≠ .closing) {ts : List Token}
    (hts : Closes ts) : Closes (t :: ts) := by
  intro n rest
  rw [List.cons_append]
  cases t with
  | opening => exact absurd rfl ho
  | closing => exact absurd rfl hc
  | _ => exact hts n rest

theorem Closes.parenthesized {ts : List Token} (hts : Closes ts) :
    Closes (.opening :: (ts ++ [.closing])) := by
  intro n rest
  rw [List.cons_append, List.append_assoc, openAfter, hts]
  rfl

theorem closes_nil : Closes [] := fun _ _ => rfl

theorem Reference.Plain.closes {r : Reference} (h : r.Plain) : Closes r.tokens := by
  have hindices : ∀ ts : List Token, (∀ t ∈ ts, t = .comma ∨ ∃ w, t = .word w) → Closes ts := by
    intro ts hts
    induction ts with
    | nil => exact closes_nil
    | cons t ts ih =>
      rw [List.forall_mem_cons] at hts
      obtain rfl | ⟨w, rfl⟩ := hts.1 <;> exact (ih hts.2).cons (by simp) (by simp)
  unfold Reference.tokens
  split
  · exact closes_nil.cons (by simp) (by simp)
  · exact (hindices _ (Reference.Plain.indexTokens h.unsigned)).parenthesized.cons (by simp)
      (by simp)

theorem Strict.closes {l : Level} {ts : List Token} (h : Strict l ts) : Closes ts := by
  induction h with
  | numeral _ => exact closes_nil.cons (by simp) (by simp)
  | reference hr => exact hr.closes
  | parentheses _ ih => exact ih.parenthesized
  | primary _ ih | factor _ ih | term _ ih => exact ih
  | negated _ ih => exact ih.cons (by simp) (by simp)
  | power _ _ ihs iht | times _ _ ihs iht | plus _ _ ihs iht | minus _ _ ihs iht =>
    exact ihs.append (iht.cons (by simp) (by simp))

theorem Strict.balanced {l : Level} {ts : List Token} (h : Strict l ts) : Balanced ts := by
  have hcloses := h.closes 0 []
  rwa [List.append_nil] at hcloses

/-! ## Texts of the grammar -/

/-- The text belongs to the strict grammar, read at the level. -/
def StrictText (l : Level) (s : List Char) : Prop := ∃ ts, Scans s ts ∧ Strict l ts

namespace StrictText

variable {s t : List Char}

theorem of_primary (h : StrictText .primary s) : StrictText .term s := by
  obtain ⟨ts, hs, hts⟩ := h
  exact ⟨ts, hs, .factor (.primary hts)⟩

theorem sum (h : StrictText .term s) : StrictText .sum s := by
  obtain ⟨ts, hs, hts⟩ := h
  exact ⟨ts, hs, .term hts⟩

theorem numeral {w : List Char} {v : ℚ} (h : numeral? w = some v) : StrictText .primary w :=
  ⟨_, Scans.numeral h, .numeral h⟩

theorem reference {r : Reference} (h : r.Plain) : StrictText .primary r.chars :=
  ⟨_, h.toWellFormed.scans, .reference h⟩

theorem parenthesized (h : StrictText .sum s) : StrictText .primary ('(' :: (s ++ [')'])) := by
  obtain ⟨ts, hs, hts⟩ := h
  exact ⟨_, hs.parenthesized, .parentheses hts⟩

theorem power (hs : StrictText .primary s) (ht : StrictText .primary t) :
    StrictText .term (s ++ '*' :: '*' :: t) := by
  obtain ⟨ts, hs, hts⟩ := hs
  obtain ⟨us, ht, hus⟩ := ht
  exact ⟨_, hs.power ht, .factor (.power hts hus)⟩

theorem mul (hs : StrictText .term s) (ht : StrictText .term t) :
    StrictText .term (s ++ '*' :: t) := by
  obtain ⟨ts, hs, hts⟩ := hs
  obtain ⟨us, ht, hus⟩ := ht
  exact ⟨_, hs.times ht, hts.mul_term hus⟩

theorem negated (h : StrictText .term s) : StrictText .sum ('-' :: s) := by
  obtain ⟨ts, hs, hts⟩ := h
  exact ⟨_, hs.negated, .negated hts⟩

theorem add (hs : StrictText .sum s) (ht : StrictText .term t) :
    StrictText .sum (s ++ [' ', '+', ' '] ++ t) := by
  obtain ⟨ts, hs, hts⟩ := hs
  obtain ⟨us, ht, hus⟩ := ht
  refine ⟨ts ++ .plus :: us, ?_, .plus hts hus⟩
  simpa [symbolToken] using hs.spaced (o := '+') (by decide) (by decide) ht

theorem sub (hs : StrictText .sum s) (ht : StrictText .term t) :
    StrictText .sum (s ++ [' ', '-', ' '] ++ t) := by
  obtain ⟨ts, hs, hts⟩ := hs
  obtain ⟨us, ht, hus⟩ := ht
  refine ⟨ts ++ .minus :: us, ?_, .minus hts hus⟩
  simpa [symbolToken] using hs.spaced (o := '-') (by decide) (by decide) ht

/-- A term does not begin with a minus sign. -/
theorem head?_ne (h : StrictText .term s) : s.head? ≠ some '-' := by
  obtain ⟨ts, hs, hts⟩ := h
  intro hhead
  obtain ⟨cs, rfl⟩ := List.head?_eq_some_iff.1 hhead
  have htokens := hs.scan_append [] stops_nil
  rw [List.append_nil, scan_nil_cons, scan_symbol (by decide) (by decide)] at htokens
  have hfirst : ts.head? = some .minus := by
    rw [scan, lexeme, List.append_nil] at htokens
    rw [← htokens]
    rfl
  have hoperand : Token.minus.isOperator = false := IsOperand.first hts.operands _ hfirst
  exact absurd hoperand (by decide)

end StrictText

/-! ## Terms behind a sign -/

/-- The text is a term, or a minus sign and a term. -/
def SignedTerm (s : List Char) : Prop :=
  StrictText .term s ∨ ∃ t, s = '-' :: t ∧ StrictText .term t

theorem SignedTerm.sum {s : List Char} (h : SignedTerm s) : StrictText .sum s := by
  obtain h | ⟨t, rfl, h⟩ := h
  · exact h.sum
  · exact h.negated

theorem SignedTerm.mul {s t : List Char} (hs : SignedTerm s) (ht : StrictText .term t) :
    SignedTerm (s ++ '*' :: t) := by
  obtain hs | ⟨r, rfl, hs⟩ := hs
  · exact .inl (hs.mul ht)
  · exact .inr ⟨_, rfl, hs.mul ht⟩

end GaussianIntegrals.Code
