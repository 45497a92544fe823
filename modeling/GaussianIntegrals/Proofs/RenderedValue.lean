/-
  The text of an expression denotes its value: read as arithmetic, with the names valued as in
  the expression, it has the exact value of the expression. There is a text as long as no exponent
  has too many digits (`unique_reading`); what has a value may have no text
  (`longPower_without_text`).

  A product's text is a term whatever its factors are, because only sums get parentheses of
  their own; so the induction keeps a term for each part of a product or a sum, together
  with the term that is left when a sum takes its leading minus sign away.
-/
import GaussianIntegrals.Expr.Render
import GaussianIntegrals.Proofs.Code.Denotes
import GaussianIntegrals.Proofs.ExactValue
import GaussianIntegrals.Proofs.StrictTexts

namespace GaussianIntegrals

open GaussianIntegrals.Code

/-- The name is the text of a variable or of a matrix entry. -/
def IsReference (name : String) : Prop := ∃ r : Reference, r.WellFormed ∧ r.text = name

namespace Expr

/-- The expression, its parts apart, can be read back: a name is a reference, a constant has an
exact literal and an exponent has a text. -/
def Legible : Expr → Prop
  | .const v => ExactLiteral v
  | .symbol n => IsReference n
  | .power b k => IsReference b ∧ Text.Writable k
  | .alias n _ => IsReference n
  | _ => True

/-- The name of the expression, if it has one, has a value. -/
def Bound (values : String → Option ℚ) (e : Expr) : Prop :=
  ∀ name, e.ownName? = some name → (values name).isSome

/-- The names in the text of an expression are those of its parts. -/
theorem everyPart_of_names {values : String → Option ℚ} {e : Expr}
    (h : ∀ name ∈ e.names, (values name).isSome) : EveryPart (Bound values) e :=
  fun n hn name hname => h name (mem_names.2 ⟨n, hn, hname⟩)

/-- References have the values of their texts. -/
def readName (values : String → Option ℚ) (r : Reference) : Option ℚ := values r.text

variable {values : String → Option ℚ}

/-! ## Names and powers -/

theorem denotesTerm_name {n : String} {x : ℚ} (hn : IsReference n) (hx : values n = some x) :
    DenotesTerm (readName values) n.toList x := by
  obtain ⟨r, hr, rfl⟩ := hn
  have h : DenotesTerm (readName values) r.chars x := .reference hr hx
  rwa [Reference.text, String.toList_ofList]

theorem denotes_natText {n : ℕ} : Denotes (readName values) .primary (Nat.toDigits 10 n) n :=
  .numeral (numeral?_toDigits n)

/-- An exponent is a primary; a negative one has parentheses. -/
theorem denotes_exponent (k : ℤ) :
    Denotes (readName values) .primary
      (if k < 0 then parenthesized (toString k) else toString k).toList k := by
  have htext : Denotes (readName values) .term (toString k).toList k := by
    rw [toList_intText]
    exact (DenotesTerm.decimal (decimal?_intText k)).term
  split
  · simpa [parenthesized] using htext.sum.parenthesized
  · next hk =>
    have habs : ((k.natAbs : ℕ) : ℚ) = (k : ℚ) := by
      rw [← Int.cast_natCast, Int.natAbs_of_nonneg (not_lt.1 hk)]
    rw [toList_intText, if_neg hk, ← habs]
    exact denotes_natText

theorem denotesTerm_power {b : String} {k : ℤ} {x : ℚ} (hb : IsReference b)
    (hx : HasValue values (.power b k) x) :
    DenotesTerm (readName values) (powerLabel b k).toList x := by
  obtain ⟨y, hy, h0, rfl⟩ := hasValue_power.1 hx
  obtain ⟨r, hr, rfl⟩ := hb
  have hbase : Denotes (readName values) .primary r.text.toList y := by
    rw [Reference.text, String.toList_ofList]
    exact .reference hr hy
  have h := DenotesTerm.parenthesized (hbase.power (denotes_exponent k) h0).term.sum
  simpa [powerLabel, parenthesized] using h

/-! ## Products and sums of texts -/

/-- The texts are terms with the given values. -/
abbrev DenoteTerms (values : String → Option ℚ) : List String → List ℚ → Prop :=
  List.Forall₂ fun s x => DenotesTerm (readName values) s.toList x

theorem denotesTerm_intercalate {s : String} {ss : List String} {x : ℚ} {xs : List ℚ}
    (hs : DenotesTerm (readName values) s.toList x) (hss : DenoteTerms values ss xs) :
    DenotesTerm (readName values) ("*".intercalate (s :: ss)).toList (x * xs.prod) := by
  induction hss generalizing s x with
  | nil => simpa using hs
  | @cons t y ss xs ht _ ih =>
    have h := hs.mul (ih ht).term
    simpa [String.intercalate_cons_cons] using h

theorem denotesTerm_productText {fs : List Expr} {ss : List String} {xs : List ℚ}
    (hxs : HaveValues values fs xs) (hss : DenoteTerms values ss xs) :
    DenotesTerm (readName values) (productText (leadsMinusOne fs) ss).toList xs.prod := by
  cases hss with
  | nil =>
    have h : decimal? ['1'] = some ((1 : ℤ) : ℚ) := decimal?_intText 1
    simpa [productText] using DenotesTerm.decimal h
  | @cons s x ss xs hs hrest =>
    cases hrest with
    | nil => simpa [productText] using hs
    | cons ht hts =>
      cases hlead : leadsMinusOne fs with
      | true =>
        -- a constant -1 in front has the value -1
        have hx : x = -1 := by
          cases hxs with
          | @cons f _ _ _ hf _ =>
            cases f with
            | const v =>
              rw [← hasValue_const.1 hf]
              exact beq_iff_eq.1 hlead
            | _ => cases hlead
        have h := DenotesTerm.neg (denotesTerm_intercalate ht hts).term
        rw [hx, List.prod_cons, List.prod_cons, neg_one_mul]
        simpa [productText] using h
      | false =>
        have h := denotesTerm_intercalate hs (.cons ht hts)
        simpa [productText] using h

theorem denotes_appendTerm {s t : String} {x y : ℚ}
    (hs : Denotes (readName values) .sum s.toList x)
    (ht : DenotesTerm (readName values) t.toList y) :
    Denotes (readName values) .sum (appendTerm s t).toList (x + y) := by
  unfold appendTerm
  split
  · next r hr =>
    have h := hs.sub (ht.stripped r hr)
    rw [sub_neg_eq_add] at h
    simpa using h
  · simpa using hs.add ht.term

theorem denotes_foldl_appendTerm {s : String} {ss : List String} {x : ℚ} {xs : List ℚ}
    (hs : Denotes (readName values) .sum s.toList x) (hss : DenoteTerms values ss xs) :
    Denotes (readName values) .sum (ss.foldl appendTerm s).toList (x + xs.sum) := by
  induction hss generalizing s x with
  | nil => simpa using hs
  | @cons t y ss xs ht _ ih =>
    rw [List.foldl_cons, List.sum_cons, ← add_assoc]
    exact ih (denotes_appendTerm hs ht)

theorem denotes_sumText {ss : List String} {xs : List ℚ} (hss : DenoteTerms values ss xs) :
    Denotes (readName values) .sum (sumText ss).toList xs.sum := by
  cases hss with
  | nil =>
    have h : decimal? ['0'] = some ((0 : ℤ) : ℚ) := decimal?_intText 0
    simpa [sumText] using (DenotesTerm.decimal h).term.sum
  | cons hs hss => exact denotes_foldl_appendTerm hs.term.sum hss

/-! ## Expressions -/

/-- What the text of an expression denotes; only a sum's text is not a term. -/
structure Rendered (values : String → Option ℚ) (e : Expr) (x : ℚ) (s : String) : Prop where
  render_eq : e.render = .ok s
  sum : Denotes (readName values) .sum s.toList x
  term : e.isSum = false → DenotesTerm (readName values) s.toList x

theorem Rendered.of_term {e : Expr} {x : ℚ} {s : String} (he : e.render = .ok s)
    (h : DenotesTerm (readName values) s.toList x) : Rendered values e x s :=
  ⟨he, h.term.sum, fun _ => h⟩

/-- The text of a part, a sum in parentheses. -/
theorem Rendered.part {e : Expr} {x : ℚ} {s : String} (h : Rendered values e x s) :
    DenotesTerm (readName values) (if e.isSum then parenthesized s else s).toList x := by
  split
  · simpa [parenthesized] using DenotesTerm.parenthesized h.sum
  · next he => exact h.term (Bool.eq_false_iff.2 he)

mutual
/-- An expression whose parts can be read back and have values has a text, and the text
denotes the expression's value. -/
theorem exists_rendered {e : Expr} {x : ℚ} (hl : EveryPart Legible e)
    (hb : EveryPart (Bound values) e) (hx : HasValue values e x) :
    ∃ s, Rendered values e x s := by
  cases e with
  | const v =>
    obtain ⟨s, hs, hv⟩ := everyPart_const.1 hl
    rw [hasValue_const.1 hx] at hv
    exact ⟨s, .of_term hs (.decimal hv)⟩
  | symbol n =>
    exact ⟨n, .of_term rfl (denotesTerm_name (everyPart_symbol.1 hl) (hasValue_symbol.1 hx))⟩
  | power b k =>
    obtain ⟨hb, hk⟩ := everyPart_power.1 hl
    exact ⟨powerLabel b k, .of_term (render_power hk) (denotesTerm_power hb hx)⟩
  | group b =>
    obtain ⟨s, hs⟩ := exists_rendered (everyPart_group.1 hl).2 (everyPart_group.1 hb).2
      (hasValue_group.1 hx)
    refine ⟨parenthesized s, .of_term ?_ ?_⟩
    · simp [render, hs.render_eq, bind, Except.bind]
    · simpa [parenthesized] using DenotesTerm.parenthesized hs.sum
  | product fs =>
    obtain ⟨xs, hxs, rfl⟩ := hasValue_product.1 hx
    obtain ⟨ss, hr, hss⟩ := exists_renderedParts (everyPart_product.1 hl).2
      (everyPart_product.1 hb).2 hxs
    refine ⟨productText (leadsMinusOne fs) ss, .of_term ?_ (denotesTerm_productText hxs hss)⟩
    simp [render, hr, bind, Except.bind]
  | sum ts =>
    obtain ⟨xs, hxs, rfl⟩ := hasValue_sum.1 hx
    obtain ⟨ss, hr, hss⟩ := exists_renderedParts (everyPart_sum.1 hl).2
      (everyPart_sum.1 hb).2 hxs
    refine ⟨sumText ss, ?_, denotes_sumText hss, fun h => ?_⟩
    · simp [render, hr, bind, Except.bind]
    · cases h
  | _ =>
    -- an alias: its name is bound, so the name's value counts
    rename_i n t
    have hv : values n = some x := by
      rcases hasValue_alias.1 hx with h | ⟨h, -⟩
      · exact h
      · have hn := everyPart_alias.1 hb n rfl
        rw [h] at hn
        cases hn
    exact ⟨n, .of_term rfl (denotesTerm_name (everyPart_alias.1 hl) hv)⟩

theorem exists_renderedParts {es : List Expr} {xs : List ℚ}
    (hl : ∀ e ∈ es, EveryPart Legible e) (hb : ∀ e ∈ es, EveryPart (Bound values) e)
    (hx : HaveValues values es xs) :
    ∃ ss, renderParts es = .ok ss ∧ DenoteTerms values ss xs := by
  match hx with
  | .nil => exact ⟨[], rfl, .nil⟩
  | @List.Forall₂.cons _ _ _ e x es xs hx hxs =>
    rw [List.forall_mem_cons] at hl hb
    obtain ⟨s, hs⟩ := exists_rendered hl.1 hb.1 hx
    obtain ⟨ss, hr, hss⟩ := exists_renderedParts hl.2 hb.2 hxs
    refine ⟨(if e.isSum then parenthesized s else s) :: ss, ?_, .cons hs.part hss⟩
    simp [renderParts, hs.render_eq, hr, bind, Except.bind]
end

end Expr

open Expr

/-! ## Identifiers -/

/-- A letter, then letters and digits. -/
def isIdentifier (w : List Char) : Bool := isName w && w.all fun c => isLetter c || c.isDigit

/-- An identifier, or an identifier with one integer in parentheses behind it. -/
inductive IsSimpleName : String → Prop where
  | identifier {w : List Char} : isIdentifier w = true → IsSimpleName (String.ofList w)
  | indexed {w : List Char} {i : Index} {n : ℕ} : isIdentifier w = true →
      natural? i.word = some n → IsSimpleName (String.ofList (w ++ '(' :: (i.chars ++ [')'])))

theorem isWord_of_isIdentifier {w : List Char} (h : isIdentifier w = true) :
    isName w = true ∧ IsWord w := by
  rw [isIdentifier, Bool.and_eq_true, List.all_eq_true] at h
  refine ⟨h.1, ?_, fun c hc => ?_⟩
  · rintro rfl
    exact absurd h.1 (by decide)
  · have hchar := h.2 c hc
    simp [isWordChar, hchar]

theorem IsSimpleName.isReference {name : String} (h : IsSimpleName name) : IsReference name := by
  cases h with
  | @identifier w hw =>
    obtain ⟨hname, hword⟩ := isWord_of_isIdentifier hw
    exact ⟨⟨w, []⟩, ⟨hname, hword, by simp⟩, rfl⟩
  | @indexed w i n hw hi =>
    obtain ⟨hname, hword⟩ := isWord_of_isIdentifier hw
    obtain ⟨hne, hdigits⟩ := natural?_eq_some hi
    have hindex : IsWord i.word := ⟨hne, fun c hc => isWordChar_of_isDigit (hdigits c hc)⟩
    exact ⟨⟨w, [i]⟩, ⟨hname, hword, by simpa using hindex⟩, rfl⟩

theorem legible_of_names {e : Expr} (hnames : ∀ name ∈ e.names, IsSimpleName name)
    (hconstants : ∀ v, .const v ∈ e.walk → ExactLiteral v)
    (hexponents : ∀ b k, .power b k ∈ e.walk → Text.Writable k) : EveryPart Legible e := by
  intro n hn
  have hname : ∀ name, n.ownName? = some name → IsReference name := fun name hown =>
    (hnames name (mem_names.2 ⟨n, hn, hown⟩)).isReference
  cases n with
  | const v => exact hconstants v hn
  | symbol k => exact hname k rfl
  | power b k => exact ⟨hname b rfl, hexponents b k hn⟩
  | group b => trivial
  | product fs => trivial
  | sum ts => trivial
  | _ => exact hname _ rfl

/-- **The text of an expression has one reading, and it has the value of the expression**,
where names are simple, constants have exact literals, and the valuation gives a value to
all names in the text and to the expression. There is a text just if all exponents have one. -/
theorem unique_reading {values : String → Option ℚ} {e : Expr} {x : ℚ}
    (hnames : ∀ name ∈ e.names, IsSimpleName name)
    (hconstants : ∀ v, .const v ∈ e.walk → ExactLiteral v)
    (hbound : ∀ name ∈ e.names, (values name).isSome) (hx : e.exactValue values = .ok x) :
    ((∃ s, e.render = .ok s) ↔ ∀ b k, .power b k ∈ e.walk → Text.Writable k) ∧
      ∀ s, e.render = .ok s → ∃ a, read (tokens s) = some a ∧
        (∀ b, Reads .sum (tokens s) b ↔ b = a) ∧ a.value (readName values) = some x := by
  have hexponents : ∀ {s}, e.render = .ok s → ∀ b k, .power b k ∈ e.walk → Text.Writable k :=
    fun h _ _ hk => printable_of_render h _ hk
  have hrendered : (∀ b k, .power b k ∈ e.walk → Text.Writable k) → ∃ s, Rendered values e x s :=
    fun h => exists_rendered (legible_of_names hnames hconstants h) (everyPart_of_names hbound) hx
  refine ⟨⟨fun ⟨s, hs⟩ => hexponents hs, fun h => ?_⟩, fun s hs => ?_⟩
  · obtain ⟨s, hs⟩ := hrendered h
    exact ⟨s, hs.render_eq⟩
  · obtain ⟨t, ht⟩ := hrendered (hexponents hs)
    obtain rfl : t = s := Except.ok.inj (ht.render_eq.symm.trans hs)
    obtain ⟨ts, a, hscan, hreads, hvalue⟩ := ht.sum
    have htokens : tokens t = ts := hscan.tokens_eq
    rw [← htokens] at hreads
    refine ⟨a, hreads.read_eq, fun b => ⟨fun hb => hb.unique hreads, ?_⟩, hvalue⟩
    rintro rfl
    exact hreads

/-- `-PA(1)*(x_1 - 0.5*(Y**(-2))) - 3*-e2 + (0) + 1 + (-4)`, the sign of each factor in place. -/
def signedExample : Expr :=
  .sum [.product [.const (-1), .symbol "PA(1)",
      .sum [.symbol "x_1", .product [.const (-1 / 2), .power "Y" (-2)]]],
    .product [.const (-3), .product [.const (-1), .alias "e2" (.power "eps" 2)]],
    .group (.sum []), .product [], .sum [.const (-4)]]

/-- Values of the names in that text; the short name has the value of its target. -/
def signedPoint : String → Option ℚ
  | "PA(1)" => some 2
  | "x_1" => some (1 / 3)
  | "Y" => some (-2)
  | "eps" => some 3
  | "e2" => some 9
  | _ => none

theorem unique_reading_signed :
    ∃ s a, signedExample.render = .ok s ∧ read (tokens s) = some a ∧
      (∀ b, Reads .sum (tokens s) b ↔ b = a) ∧
        a.value (readName signedPoint) = some (283 / 12) := by
  have hwalk : signedExample.walk.filterMap ownName? = ["PA(1)", "x_1", "Y", "e2"] := by
    decide +kernel
  have hnames : ∀ name, name ∈ signedExample.names ↔ name ∈ ["PA(1)", "x_1", "Y", "e2"] := by
    intro name
    rw [mem_names, ← List.mem_filterMap, hwalk]
  have hsimple : ∀ name ∈ ["PA(1)", "x_1", "Y", "e2"], IsSimpleName name := by
    simp only [List.forall_mem_cons]
    exact ⟨.indexed (w := ['P', 'A']) (i := ⟨false, ['1']⟩) (n := 1) (by decide) (by decide),
      .identifier (w := ['x', '_', '1']) (by decide), .identifier (w := ['Y']) (by decide),
      .identifier (w := ['e', '2']) (by decide), by simp⟩
  have hinteger : ∀ v : ℤ, v.natAbs ≤ 4 → ExactLiteral (v : ℚ) := fun v hv =>
    exactLiteral_of_natAbs_le (hv.trans (by decide))
  have hsome : signedExample.render.toOption.isSome = true := by decide +kernel
  obtain ⟨s, hs⟩ : ∃ s, signedExample.render = .ok s := by
    cases h : signedExample.render with
    | ok s => exact ⟨s, rfl⟩
    | error e => simp [h, Except.toOption] at hsome
  have hconstants : ∀ v, .const v ∈ signedExample.walk → ExactLiteral v := by
    intro v hv
    simp only [signedExample, walk, walkAll, List.mem_cons, List.mem_append, Expr.const.injEq,
      reduceCtorEq, List.not_mem_nil, false_or, or_false] at hv
    rcases hv with (rfl | rfl) | (rfl | rfl) | rfl
    · exact hinteger (-1) (by decide)
    · exact exactLiteral_fraction (by decide +kernel) (by decide +kernel)
    · exact hinteger (-3) (by decide)
    · exact hinteger (-1) (by decide)
    · exact hinteger (-4) (by decide)
  have hbound : ∀ name ∈ signedExample.names, (signedPoint name).isSome := by
    have hall : ∀ name ∈ ["PA(1)", "x_1", "Y", "e2"], (signedPoint name).isSome := by decide
    exact fun name h => hall name ((hnames name).1 h)
  have hvalue : signedExample.exactValue signedPoint = .ok (283 / 12) := by decide +kernel
  obtain ⟨a, ha⟩ := (unique_reading (fun name h => hsimple name ((hnames name).1 h)) hconstants
    hbound hvalue).2 s hs
  exact ⟨s, a, hs, ha⟩

/-- A power whose exponent has a digit too many. -/
def longPower : Expr := .power "x" (10 ^ Text.digitLimit)

/-- Where `x` is one that power has a value, and it has no text. -/
theorem longPower_without_text :
    (∀ name ∈ longPower.names, IsSimpleName name) ∧
      (∀ v, .const v ∈ longPower.walk → ExactLiteral v) ∧
      (∀ name ∈ longPower.names, ((fun _ => some 1 : String → Option ℚ) name).isSome) ∧
      longPower.exactValue (fun _ => some 1) = .ok 1 ∧ ¬ ∃ s, longPower.render = .ok s := by
  refine ⟨fun name h => ?_, fun v hv => ?_, fun _ _ => rfl, ?_, fun ⟨s, hs⟩ => ?_⟩
  · obtain ⟨n, hn, hname⟩ := mem_names.1 h
    obtain rfl := List.mem_singleton.1 hn
    obtain rfl := Option.some.inj hname
    exact .identifier (w := ['x']) (by decide)
  · exact absurd (List.mem_singleton.1 hv) nofun
  · exact hasValue_power.2 ⟨1, rfl, fun h => absurd h one_ne_zero, one_zpow _⟩
  · exact Text.not_writable_pow (render_power_eq_ok_iff.1 hs).1

end GaussianIntegrals
