/-
  Where minus signs can stand in the text of an expression. The text of a negative constant
  begins with a sign, and so does that of a product whose first factor begins with one; behind
  another factor a sign would follow the operator `*`. An expression has its signs in front if no
  product has such a factor behind the first (`SignsInFront`).

  The rules keep this. They could bring a sign to the wrong place where a sum of one term becomes
  the term, as in `a * (-2 * b)`; as they keep the first term of a sum and its sign, no sum may
  stand behind another factor whose first term begins with a sign, and so a sum counts here as
  what it may become. What replaces an expression begins with a sign only if the expression does
  (`SignedAs`).
-/
import GaussianIntegrals.Proofs.Parts
import Mathlib.Algebra.Order.Ring.Rat

namespace GaussianIntegrals

namespace Expr

/-- The text begins with a minus sign, that of a sum without its parentheses. -/
def leadsMinus : Expr → Bool
  | .const v => decide (v < 0)
  | .product (f :: _) => f.leadsMinus
  | .sum (t :: _) => t.leadsMinus
  | _ => false

/-- No text in the list begins with a minus sign. -/
def Unsigned (es : List Expr) : Prop := ∀ e ∈ es, e.leadsMinus = false

theorem unsigned_cons {e : Expr} {es : List Expr} :
    Unsigned (e :: es) ↔ e.leadsMinus = false ∧ Unsigned es := List.forall_mem_cons

theorem unsigned_append {es fs : List Expr} :
    Unsigned (es ++ fs) ↔ Unsigned es ∧ Unsigned fs := List.forall_mem_append

theorem Unsigned.filter {es : List Expr} (h : Unsigned es) (keep : Expr → Bool) :
    Unsigned (es.filter keep) := fun e he => h e (List.mem_of_mem_filter he)

theorem Unsigned.tail {es : List Expr} (h : Unsigned es) : Unsigned es.tail :=
  fun e he => h e (List.mem_of_mem_tail he)

theorem unsigned_tail_filter {es : List Expr} (h : Unsigned es.tail) (keep : Expr → Bool) :
    Unsigned (es.filter keep).tail := by
  cases es with
  | nil => exact h
  | cons e es =>
    rw [List.filter_cons]
    split
    · exact Unsigned.filter h keep
    · exact (Unsigned.filter h keep).tail

/-- Only the first factor of a product begins with a minus sign. -/
def SignsInFront : Expr → Prop
  | .product fs => Unsigned fs.tail
  | _ => True

theorem leadsMinus_product_eq_false_iff {fs : List Expr} (h : SignsInFront (.product fs)) :
    (Expr.product fs).leadsMinus = false ↔ Unsigned fs := by
  cases fs with
  | nil => simp [leadsMinus, Unsigned]
  | cons f fs =>
    rw [unsigned_cons, leadsMinus]
    exact (and_iff_left h).symm

theorem leadsMinus_zero : zero.leadsMinus = false := by decide

theorem leadsMinus_one : one.leadsMinus = false := by decide

theorem leadsMinus_ofTerms (t : Expr) (ts : List Expr) :
    (ofTerms (t :: ts)).leadsMinus = t.leadsMinus := by
  cases ts <;> rfl

/-! ## Opened products -/

mutual
theorem unsigned_factors {e : Expr} (h : EveryPart SignsInFront e) (he : e.leadsMinus = false) :
    Unsigned e.factors := by
  cases e with
  | product fs =>
    obtain ⟨hself, hfs⟩ := everyPart_product.1 h
    exact unsigned_factorsAll hfs ((leadsMinus_product_eq_false_iff hself).1 he)
  | _ => exact List.forall_mem_singleton.2 he

theorem unsigned_factorsAll {es : List Expr} (h : ∀ e ∈ es, EveryPart SignsInFront e)
    (hes : Unsigned es) : Unsigned (factorsAll es) := by
  cases es with
  | nil => exact hes
  | cons e es =>
    rw [List.forall_mem_cons] at h
    rw [unsigned_cons] at hes
    exact unsigned_append.2 ⟨unsigned_factors h.1 hes.1, unsigned_factorsAll h.2 hes.2⟩
end

mutual
theorem unsigned_tail_factors {e : Expr} (h : EveryPart SignsInFront e) :
    Unsigned e.factors.tail := by
  cases e with
  | product fs =>
    obtain ⟨hself, hfs⟩ := everyPart_product.1 h
    exact unsigned_tail_factorsAll hfs hself
  | _ => exact List.forall_mem_nil _

theorem unsigned_tail_factorsAll {es : List Expr} (h : ∀ e ∈ es, EveryPart SignsInFront e)
    (hes : Unsigned es.tail) : Unsigned (factorsAll es).tail := by
  cases es with
  | nil => exact hes
  | cons e es =>
    rw [List.forall_mem_cons] at h
    have hrest : Unsigned (factorsAll es) := unsigned_factorsAll h.2 hes
    have hfirst := unsigned_tail_factors h.1
    rw [factorsAll]
    -- where the first expression has no factors the second one comes to the front
    cases hfactors : e.factors with
    | nil => exact hrest.tail
    | cons f fs =>
      rw [hfactors] at hfirst
      exact unsigned_append.2 ⟨hfirst, hrest⟩
end

/-! ## Replacements -/

/-- What stands in the place of an expression has its signs in front, and it begins with a sign
only if the expression does. -/
structure SignedAs (e e' : Expr) : Prop where
  inFront : EveryPart SignsInFront e'
  unsigned : e.leadsMinus = false → e'.leadsMinus = false

theorem SignedAs.refl {e : Expr} (h : EveryPart SignsInFront e) : SignedAs e e := ⟨h, id⟩

theorem SignedAs.trans {e e' e'' : Expr} (h : SignedAs e e') (h' : SignedAs e' e'') :
    SignedAs e e'' :=
  ⟨h'.inFront, fun he => h'.unsigned (h.unsigned he)⟩

theorem forall₂_unsigned {es es' : List Expr} (h : List.Forall₂ SignedAs es es')
    (hes : Unsigned es) : Unsigned es' :=
  forall_of_forall₂ h (fun _ _ h he => h.unsigned he) hes

theorem compositional_signedAs : Compositional SignsInFront SignedAs where
  keeps := SignedAs.inFront
  trans := SignedAs.trans
  group h hb := ⟨everyPart_group.2 ⟨trivial, hb.inFront⟩, id⟩
  product h hfs := by
    have hself := (everyPart_product.1 h).1
    have hself' : SignsInFront (.product _) := forall₂_unsigned (forall₂_tail hfs) hself
    refine ⟨everyPart_product.2 ⟨hself', ?_⟩, fun he => ?_⟩
    · exact forall_right_of_forall₂ hfs fun _ _ h => h.inFront
    · rw [leadsMinus_product_eq_false_iff hself] at he
      exact (leadsMinus_product_eq_false_iff hself').2 (forall₂_unsigned hfs he)
  sum h hts := by
    refine ⟨everyPart_sum.2 ⟨trivial, ?_⟩, fun he => ?_⟩
    · exact forall_right_of_forall₂ hts fun _ _ h => h.inFront
    · cases hts with
      | nil => rfl
      | cons ht _ => exact ht.unsigned he

/-- An expression without parts and without a sign. -/
theorem SignedAs.of_leaf {e e' : Expr} (hparts : e'.parts = []) (hself : SignsInFront e')
    (hsign : e'.leadsMinus = false) : SignedAs e e' := by
  refine ⟨everyPart_iff.2 ⟨hself, ?_⟩, fun _ => hsign⟩
  rw [hparts]
  exact List.forall_mem_nil _

theorem SignedAs.ofFactors {e : Expr} {es : List Expr} (h : ∀ f ∈ es, EveryPart SignsInFront f)
    (htail : Unsigned es.tail) (hsign : e.leadsMinus = false → Unsigned es) :
    SignedAs e (ofFactors es) := by
  refine ⟨everyPart_ofFactors (fun _ => htail) h, fun he => ?_⟩
  unfold Expr.ofFactors
  split
  · exact hsign he _ List.mem_cons_self
  · exact (leadsMinus_product_eq_false_iff htail).2 (hsign he)

/-- Some of the factors of a product, the inner products opened. -/
theorem SignedAs.filter_factorsAll {fs : List Expr} (h : EveryPart SignsInFront (.product fs))
    (keep : Expr → Bool) :
    SignedAs (.product fs) (Expr.ofFactors ((factorsAll fs).filter keep)) := by
  obtain ⟨hself, hfs⟩ := everyPart_product.1 h
  refine .ofFactors ?_ (unsigned_tail_filter (unsigned_tail_factorsAll hfs hself) keep) ?_
  · exact fun f hf => everyPart_factorsAll hfs f (List.mem_of_mem_filter hf)
  · intro he
    exact (unsigned_factorsAll hfs ((leadsMinus_product_eq_false_iff hself).1 he)).filter keep

end Expr

open Expr

/-! ## The five rules -/

/-- Where signs are in front, what the step puts in place is signed as what was there. -/
def KeepsSigns (step? : Expr → Option Expr) : Prop :=
  ∀ e, EveryPart SignsInFront e → SignedAs e ((step? e).getD e)

namespace Rule

theorem keepsSigns_zeroPower : KeepsSigns zeroPower.step? := by
  intro e h
  cases e with
  | power b k =>
    simp only [zeroPower]
    split
    · exact .of_leaf rfl trivial leadsMinus_one
    · exact .refl h
  | _ => exact .refl h

theorem keepsSigns_unitPower : KeepsSigns unitPower.step? := by
  intro e h
  cases e with
  | power b k =>
    simp only [unitPower]
    split
    · exact .of_leaf rfl trivial rfl
    · exact .refl h
  | _ => exact .refl h

theorem keepsSigns_unitFactors : KeepsSigns unitFactors.step? := by
  intro e h
  match e with
  | .product fs =>
    have hfactors := SignedAs.filter_factorsAll h (!·.isOne)
    simp only [unitFactors]
    split
    · exact .of_leaf rfl trivial leadsMinus_one
    · exact hfactors
  | .sum [t] => exact ⟨(everyPart_sum.1 h).2 t List.mem_cons_self, id⟩
  | .sum [] | .sum (_ :: _ :: _) | .const _ | .symbol _ | .power _ _ | .alias _ _ | .group _ =>
    exact .refl h

theorem keepsSigns_zeroTerms : KeepsSigns zeroTerms.step? := by
  intro e h
  match e with
  | .product fs =>
    have hfactors := SignedAs.filter_factorsAll h fun _ => true
    rw [List.filter_true] at hfactors
    simp only [zeroTerms, Option.getD_some]
    split
    · exact .of_leaf rfl trivial leadsMinus_zero
    · exact hfactors
  | .group b =>
    simp only [zeroTerms]
    split
    · exact .of_leaf rfl trivial leadsMinus_zero
    · exact .refl h
  | .sum [] => exact .of_leaf rfl trivial leadsMinus_zero
  | .sum (t :: ts) =>
    have hts := (everyPart_sum.1 h).2
    rw [List.forall_mem_cons] at hts
    have hkept : ∀ u ∈ ts.filter (!·.isZero), EveryPart SignsInFront u := fun u hu =>
      hts.2 u (List.mem_of_mem_filter hu)
    -- the first term stays in front, alone or not
    exact ⟨everyPart_ofTerms (fun _ => trivial) (List.forall_mem_cons.2 ⟨hts.1, hkept⟩),
      fun he => (leadsMinus_ofTerms t _).trans he⟩
  | .const _ | .symbol _ | .power _ _ | .alias _ _ => exact .refl h

theorem keepsSigns_aliases (map : AliasMap) : KeepsSigns (aliases map).step? := by
  intro e h
  cases he : (aliases map).step? e with
  | none => exact .refl h
  | some e' =>
    cases e with
    | power b k =>
      obtain ⟨n, -, rfl⟩ := Option.map_eq_some_iff.1 he
      exact .of_leaf rfl trivial rfl
    | symbol b =>
      obtain ⟨n, -, rfl⟩ := Option.map_eq_some_iff.1 he
      exact .of_leaf rfl trivial rfl
    | _ => exact absurd he (by simp [aliases])

theorem keepsSigns_standard (map : AliasMap) : ∀ r ∈ standard map, KeepsSigns r.step? := by
  simp only [standard, List.forall_mem_cons]
  exact ⟨keepsSigns_zeroPower, keepsSigns_unitPower, keepsSigns_unitFactors, keepsSigns_zeroTerms,
    keepsSigns_aliases map, List.forall_mem_nil _⟩

end Rule

/-- Signs that are in front stay in front under any rules that keep them there. -/
theorem signedAs_simplifyWith {rules : List Rule} (hrules : ∀ r ∈ rules, KeepsSigns r.step?)
    {e : Expr} (h : EveryPart SignsInFront e) : SignedAs e (simplifyWith rules e) := by
  induction rules generalizing e with
  | nil => exact .refl h
  | cons r rs ih =>
    rw [List.forall_mem_cons] at hrules
    have hr : SignedAs e (r.apply e) := compositional_signedAs.replace hrules.1 h
    rw [simplifyWith_cons]
    exact hr.trans (ih hrules.2 hr.inFront)

end GaussianIntegrals
