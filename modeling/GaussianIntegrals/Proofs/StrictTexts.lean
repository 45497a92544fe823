/-
  Texts of expressions in the strict grammar. The text of an expression whose signs are in front
  and whose names are plain belongs to the grammar (`strict_of_render`), and it has one if its
  constants have literals and its exponents texts (`exists_written`).

  By induction the text of a part is a term or a minus sign and a term, and the sign is there only
  if the part begins with one (`WrittenPart`): a product takes a sign from its first factor, and a
  sum makes it an operator.
-/
import GaussianIntegrals.Proofs.Code.Strict
import GaussianIntegrals.Proofs.LeadingSigns
import GaussianIntegrals.Proofs.WrittenTexts

namespace GaussianIntegrals

open GaussianIntegrals.Code GaussianIntegrals.Number

/-- The name is the text of a variable or of an entry, without signs before its indices. -/
def IsPlainReference (name : String) : Prop := ∃ r : Reference, r.Plain ∧ r.text = name

namespace Expr

/-- The name of the expression, if it has one, is plain. -/
def Named : Expr → Prop
  | .symbol n => IsPlainReference n
  | .power b _ => IsPlainReference b
  | .alias n _ => IsPlainReference n
  | _ => True

/-- A constant has a literal, and an exponent a text. -/
def Printable : Expr → Prop
  | .const v => ∃ s, literal v = .ok s
  | .power _ k => Text.Writable k
  | _ => True

/-! ## Constants, names and powers -/

/-- A literal begins with a minus sign only where the number is negative. -/
theorem strictText_literal {v : ℚ} {s : String} (h : literal v = .ok s) :
    SignedTerm s.toList ∧ (decide (v < 0) = false → StrictText .term s.toList) := by
  obtain ⟨w, x, hw, hs⟩ := exists_numeral?_of_literal h
  have hterm : StrictText .term w := (StrictText.numeral hw).of_primary
  rw [hs]
  split
  · next hv => exact ⟨.inr ⟨w, rfl, hterm⟩, fun hsign => absurd hv (of_decide_eq_false hsign)⟩
  · exact ⟨.inl hterm, fun _ => hterm⟩

theorem strictText_name {n : String} (h : IsPlainReference n) : StrictText .primary n.toList := by
  obtain ⟨r, hr, rfl⟩ := h
  rw [Reference.text, String.toList_ofList]
  exact .reference hr

/-- A negative exponent has its sign in parentheses. -/
theorem strictText_exponent (k : ℤ) :
    StrictText .primary
      (if k < 0 then parenthesized (toString k) else toString k).toList := by
  have hdigits : StrictText .primary (Nat.toDigits 10 k.natAbs) :=
    .numeral (numeral?_toDigits k.natAbs)
  split
  · next hk =>
    have htext : StrictText .sum (toString k).toList := by
      rw [toList_intText, if_pos hk]
      exact hdigits.of_primary.negated
    simpa [parenthesized] using htext.parenthesized
  · next hk => rwa [toList_intText, if_neg hk]

theorem strictText_power {b : String} (hb : IsPlainReference b) (k : ℤ) :
    StrictText .term (powerLabel b k).toList := by
  have h := ((strictText_name hb).power (strictText_exponent k)).sum.parenthesized
  simpa [powerLabel, parenthesized] using h.of_primary

/-! ## Products and sums of texts -/

/-- The text of a factor or a term. -/
structure WrittenPart (e : Expr) (s : String) : Prop where
  signed : SignedTerm s.toList
  unsigned : e.leadsMinus = false → StrictText .term s.toList

theorem strictText_intercalate {s : String} {ss : List String}
    (h : ∀ t ∈ s :: ss, StrictText .term t.toList) :
    StrictText .term ("*".intercalate (s :: ss)).toList := by
  induction ss generalizing s with
  | nil => simpa using h s List.mem_cons_self
  | cons t ss ih =>
    rw [List.forall_mem_cons] at h
    simpa [String.intercalate_cons_cons] using h.1.mul (ih h.2)

/-- Only the first factor can bring a sign. -/
theorem signedTerm_intercalate {s : String} {ss : List String} (hs : SignedTerm s.toList)
    (hss : ∀ t ∈ ss, StrictText .term t.toList) :
    SignedTerm ("*".intercalate (s :: ss)).toList := by
  cases ss with
  | nil => simpa using hs
  | cons t ss => simpa [String.intercalate_cons_cons] using hs.mul (strictText_intercalate hss)

theorem forall_unsigned {es : List Expr} {ss : List String} (h : List.Forall₂ WrittenPart es ss)
    (hes : Unsigned es) : ∀ s ∈ ss, StrictText .term s.toList := by
  induction h with
  | nil => exact List.forall_mem_nil _
  | cons hs _ ih =>
    rw [unsigned_cons] at hes
    exact List.forall_mem_cons.2 ⟨hs.unsigned hes.1, ih hes.2⟩

theorem writtenPart_productText {fs : List Expr} {ss : List String}
    (h : List.Forall₂ WrittenPart fs ss) (hfs : SignsInFront (.product fs)) :
    WrittenPart (.product fs) (productText (leadsMinusOne fs) ss) := by
  cases h with
  | nil =>
    have hone : StrictText .term ['1'] := (StrictText.numeral (numeral?_toDigits 1)).of_primary
    exact ⟨.inl (by simpa [productText] using hone), fun _ => by simpa [productText] using hone⟩
  | @cons f s fs ss hs hss =>
    have hrest : ∀ t ∈ ss, StrictText .term t.toList := forall_unsigned hss hfs
    cases ss with
    | nil => exact ⟨hs.signed, hs.unsigned⟩
    | cons t ss =>
      cases hlead : leadsMinusOne (f :: fs) with
      | true =>
        -- the constant -1 in front is the sign of what follows
        refine ⟨.inr ⟨_, ?_, strictText_intercalate hrest⟩, fun hsign => ?_⟩
        · simp [productText]
        · cases f with
          | const v =>
            rw [leadsMinusOne, beq_iff_eq] at hlead
            simp [leadsMinus, hlead] at hsign
          | _ => cases hlead
      | false =>
        refine ⟨signedTerm_intercalate hs.signed hrest, fun hsign => ?_⟩
        exact strictText_intercalate (List.forall_mem_cons.2 ⟨hs.unsigned hsign, hrest⟩)

/-- A sum takes the sign of a term as an operator of its own. -/
theorem strictText_appendTerm {s t : String} (hs : StrictText .sum s.toList)
    (ht : SignedTerm t.toList) : StrictText .sum (appendTerm s t).toList := by
  unfold appendTerm
  split
  · next r hr =>
    obtain ht | ⟨u, hu, ht⟩ := ht
    · exact absurd (by rw [hr]; rfl) ht.head?_ne
    · rw [hr] at hu
      injection hu with _ hu
      simpa [hu] using hs.sub ht
  · next hr =>
    obtain ht | ⟨u, hu, -⟩ := ht
    · simpa using hs.add ht
    · exact absurd hu (hr u)

theorem strictText_sumText {ts : List Expr} {ss : List String}
    (h : List.Forall₂ WrittenPart ts ss) : StrictText .sum (sumText ss).toList := by
  cases h with
  | nil =>
    have hzero : StrictText .term ['0'] := (StrictText.numeral (numeral?_toDigits 0)).of_primary
    simpa [sumText] using hzero.sum
  | @cons t s ts ss hs hss =>
    have hfirst := hs.signed.sum
    rw [sumText]
    clear hs
    induction hss generalizing s with
    | nil => exact hfirst
    | cons hs _ ih => exact ih (strictText_appendTerm hfirst hs.signed)

/-! ## Expressions -/

/-- The text of an expression; only a sum's text is not a term. -/
structure Written (e : Expr) (s : String) : Prop where
  render_eq : e.render = .ok s
  sum : StrictText .sum s.toList
  part : e.isSum = false → WrittenPart e s

theorem Written.of_part {e : Expr} {s : String} (he : e.render = .ok s) (h : WrittenPart e s) :
    Written e s :=
  ⟨he, h.signed.sum, fun _ => h⟩

theorem WrittenPart.of_term {e : Expr} {s : String} (h : StrictText .term s.toList) :
    WrittenPart e s :=
  ⟨.inl h, fun _ => h⟩

/-- The text of a part, a sum in parentheses. -/
theorem Written.writtenPart {e : Expr} {s : String} (h : Written e s) :
    WrittenPart e (if e.isSum then parenthesized s else s) := by
  split
  · exact .of_term (by simpa [parenthesized] using h.sum.parenthesized.of_primary)
  · next he => exact h.part (Bool.eq_false_iff.2 he)

mutual
/-- An expression with plain names, texts for its numbers and its signs in front has a text in the
strict grammar. -/
theorem exists_written {e : Expr} (hn : EveryPart Named e) (hp : EveryPart Printable e)
    (hs : EveryPart SignsInFront e) : ∃ s, Written e s := by
  cases e with
  | const v =>
    obtain ⟨s, hv⟩ := everyPart_const.1 hp
    obtain ⟨hsigned, hunsigned⟩ := strictText_literal hv
    exact ⟨s, .of_part hv ⟨hsigned, hunsigned⟩⟩
  | symbol n =>
    exact ⟨n, .of_part rfl (.of_term (strictText_name (everyPart_symbol.1 hn)).of_primary)⟩
  | power b k =>
    exact ⟨powerLabel b k, .of_part (render_power (everyPart_power.1 hp))
      (.of_term (strictText_power (everyPart_power.1 hn) k))⟩
  | group b =>
    obtain ⟨s, h⟩ := exists_written (everyPart_group.1 hn).2 (everyPart_group.1 hp).2
      (everyPart_group.1 hs).2
    refine ⟨parenthesized s, .of_part ?_ (.of_term ?_)⟩
    · simp [render, h.render_eq, bind, Except.bind]
    · simpa [parenthesized] using h.sum.parenthesized.of_primary
  | product fs =>
    obtain ⟨hself, hfs⟩ := everyPart_product.1 hs
    obtain ⟨ss, hr, hss⟩ := exists_writtenParts (everyPart_product.1 hn).2
      (everyPart_product.1 hp).2 hfs
    refine ⟨productText (leadsMinusOne fs) ss, .of_part ?_ (writtenPart_productText hss hself)⟩
    simp [render, hr, bind, Except.bind]
  | sum ts =>
    obtain ⟨ss, hr, hss⟩ := exists_writtenParts (everyPart_sum.1 hn).2 (everyPart_sum.1 hp).2
      (everyPart_sum.1 hs).2
    refine ⟨sumText ss, ?_, strictText_sumText hss, fun h => ?_⟩
    · simp [render, hr, bind, Except.bind]
    · cases h
  | _ =>
    exact ⟨_, .of_part rfl (.of_term (strictText_name (everyPart_alias.1 hn)).of_primary)⟩

theorem exists_writtenParts {es : List Expr} (hn : ∀ e ∈ es, EveryPart Named e)
    (hp : ∀ e ∈ es, EveryPart Printable e) (hs : ∀ e ∈ es, EveryPart SignsInFront e) :
    ∃ ss, renderParts es = .ok ss ∧ List.Forall₂ WrittenPart es ss := by
  cases es with
  | nil => exact ⟨[], rfl, .nil⟩
  | cons e es =>
    rw [List.forall_mem_cons] at hn hp hs
    obtain ⟨s, h⟩ := exists_written hn.1 hp.1 hs.1
    obtain ⟨ss, hr, hss⟩ := exists_writtenParts hn.2 hp.2 hs.2
    refine ⟨(if e.isSum then parenthesized s else s) :: ss, ?_, .cons h.writtenPart hss⟩
    simp [renderParts, h.render_eq, hr, bind, Except.bind]
end

/-! ## Texts of the numbers -/

mutual
/-- Where there is a text all constants have literals and all exponents texts. -/
theorem printable_of_render {e : Expr} {s : String} (h : e.render = .ok s) :
    EveryPart Printable e := by
  cases e with
  | const v => exact everyPart_const.2 ⟨s, h⟩
  | power b k => exact everyPart_power.2 (render_power_eq_ok_iff.1 h).1
  | group b =>
    obtain ⟨t, hb, -⟩ := bind_eq_ok.1 h
    exact everyPart_group.2 ⟨trivial, printable_of_render hb⟩
  | product fs =>
    obtain ⟨ss, hfs, -⟩ := bind_eq_ok.1 h
    exact everyPart_product.2 ⟨trivial, printable_of_renderParts hfs⟩
  | sum ts =>
    obtain ⟨ss, hts, -⟩ := bind_eq_ok.1 h
    exact everyPart_sum.2 ⟨trivial, printable_of_renderParts hts⟩
  | _ => exact everyPart_iff.2 ⟨trivial, List.forall_mem_nil _⟩

theorem printable_of_renderParts {es : List Expr} {ss : List String}
    (h : renderParts es = .ok ss) : ∀ e ∈ es, EveryPart Printable e := by
  cases es with
  | nil => exact List.forall_mem_nil _
  | cons e es =>
    obtain ⟨s, he, h⟩ := bind_eq_ok.1 h
    obtain ⟨ss, hes, -⟩ := bind_eq_ok.1 h
    exact List.forall_mem_cons.2 ⟨printable_of_render he, printable_of_renderParts hes⟩
end

mutual
/-- Literals for all constants and texts for all exponents are all that a text needs. -/
theorem exists_render {e : Expr} (h : EveryPart Printable e) : ∃ s, e.render = .ok s := by
  cases e with
  | const v => exact everyPart_const.1 h
  | power b k => exact ⟨_, render_power (everyPart_power.1 h)⟩
  | group b =>
    obtain ⟨s, hs⟩ := exists_render (everyPart_group.1 h).2
    exact ⟨parenthesized s, by simp [render, hs, bind, Except.bind]⟩
  | product fs =>
    obtain ⟨ss, hss⟩ := exists_renderParts (everyPart_product.1 h).2
    exact ⟨productText (leadsMinusOne fs) ss, by simp [render, hss, bind, Except.bind]⟩
  | sum ts =>
    obtain ⟨ss, hss⟩ := exists_renderParts (everyPart_sum.1 h).2
    exact ⟨sumText ss, by simp [render, hss, bind, Except.bind]⟩
  | _ => exact ⟨_, rfl⟩

theorem exists_renderParts {es : List Expr} (h : ∀ e ∈ es, EveryPart Printable e) :
    ∃ ss, renderParts es = .ok ss := by
  cases es with
  | nil => exact ⟨[], rfl⟩
  | cons e es =>
    rw [List.forall_mem_cons] at h
    obtain ⟨s, hs⟩ := exists_render h.1
    obtain ⟨ss, hss⟩ := exists_renderParts h.2
    refine ⟨(if e.isSum then parenthesized s else s) :: ss, ?_⟩
    simp [renderParts, hs, hss, bind, Except.bind]
end

/-- Any text of an expression with plain names and its signs in front is in the strict grammar. -/
theorem strict_of_render {e : Expr} (hn : EveryPart Named e) (hs : EveryPart SignsInFront e)
    {s : String} (h : e.render = .ok s) : Strict .sum (tokens s) := by
  obtain ⟨t, ht⟩ := exists_written hn (printable_of_render h) hs
  obtain rfl : t = s := Except.ok.inj (ht.render_eq.symm.trans h)
  obtain ⟨ts, hscan, hts⟩ := ht.sum
  rwa [hscan.tokens_eq]

/-- A sign behind another factor follows the operator. -/
example : ((Expr.product [.symbol "a", .const (-2)]).render.toOption.map tokens) =
    some [.word ['a'], .times, .minus, .word ['2']] := by
  decide +kernel

end Expr

end GaussianIntegrals
