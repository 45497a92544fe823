/-
  Properties of all parts of an expression, and what the rules do to them. A property that
  composite parts have anyway, that 0 and 1 have, and that passes from a power to its symbol
  and to the short name of either, holds of all parts of the simplified expression when it
  holds of all parts of the given one.
-/
import GaussianIntegrals.Expansion.Summand
import GaussianIntegrals.Simplify.Rules
import Mathlib.Data.List.Forall2

namespace GaussianIntegrals

namespace Expr

/-- All parts of the expression have the property; targets of aliases are no parts. -/
def EveryPart (p : Expr → Prop) (e : Expr) : Prop := ∀ n ∈ e.walk, p n

variable {p : Expr → Prop}

theorem mem_walkAll {n : Expr} {es : List Expr} : n ∈ walkAll es ↔ ∃ e ∈ es, n ∈ e.walk := by
  induction es with
  | nil => simp [walkAll]
  | cons e es ih => simp [walkAll, ih]

theorem everyPart_const {v : Rat} : EveryPart p (.const v) ↔ p (.const v) := by
  simp [EveryPart, walk]

theorem everyPart_symbol {n : String} : EveryPart p (.symbol n) ↔ p (.symbol n) := by
  simp [EveryPart, walk]

theorem everyPart_power {b : String} {k : Int} : EveryPart p (.power b k) ↔ p (.power b k) := by
  simp [EveryPart, walk]

theorem everyPart_alias {n : String} {t : Expr} : EveryPart p (.alias n t) ↔ p (.alias n t) := by
  simp [EveryPart, walk]

theorem everyPart_group {b : Expr} : EveryPart p (.group b) ↔ p (.group b) ∧ EveryPart p b := by
  simp [EveryPart, walk]

theorem everyPart_product {fs : List Expr} :
    EveryPart p (.product fs) ↔ p (.product fs) ∧ ∀ f ∈ fs, EveryPart p f := by
  simp only [EveryPart, walk, List.forall_mem_cons, mem_walkAll]
  exact and_congr_right fun _ => ⟨fun h f hf n hn => h n ⟨f, hf, hn⟩,
    fun h n ⟨f, hf, hn⟩ => h f hf n hn⟩

theorem everyPart_sum {ts : List Expr} :
    EveryPart p (.sum ts) ↔ p (.sum ts) ∧ ∀ t ∈ ts, EveryPart p t := by
  simp only [EveryPart, walk, List.forall_mem_cons, mem_walkAll]
  exact and_congr_right fun _ => ⟨fun h t ht n hn => h n ⟨t, ht, hn⟩,
    fun h n ⟨t, ht, hn⟩ => h t ht n hn⟩

/-- The expressions that an expression is put together from. -/
def parts : Expr → List Expr
  | .group b => [b]
  | .product fs => fs
  | .sum ts => ts
  | _ => []

theorem mem_walk_of_mem_parts {e c n : Expr} (hc : c ∈ e.parts) (h : n ∈ c.walk) : n ∈ e.walk := by
  cases e with
  | group b =>
    obtain rfl := List.mem_singleton.1 hc
    exact List.mem_cons_of_mem _ h
  | product fs => exact List.mem_cons_of_mem _ (mem_walkAll.2 ⟨c, hc, h⟩)
  | sum ts => exact List.mem_cons_of_mem _ (mem_walkAll.2 ⟨c, hc, h⟩)
  | _ => exact absurd hc List.not_mem_nil

theorem everyPart_iff {e : Expr} : EveryPart p e ↔ p e ∧ ∀ c ∈ e.parts, EveryPart p c := by
  cases e with
  | group b => rw [everyPart_group, parts, List.forall_mem_singleton]
  | product fs => exact everyPart_product
  | sum ts => exact everyPart_sum
  | _ => simp [EveryPart, walk, parts]

/-! ## Names -/

theorem mem_eraseRepsBy_loop {α : Type} [BEq α] [LawfulBEq α] {x a : α} {as acc : List α} :
    x ∈ List.eraseRepsBy.loop (· == ·) a as acc ↔ x = a ∨ x ∈ as ∨ x ∈ acc := by
  induction as generalizing a acc with
  | nil => simp [List.eraseRepsBy.loop, or_comm]
  | cons b as ih =>
    cases hab : a == b with
    | true =>
      rw [List.eraseRepsBy.loop, hab, ih, beq_iff_eq.1 hab]
      simp only [List.mem_cons, or_assoc, or_self_left]
    | false =>
      rw [List.eraseRepsBy.loop, hab, ih]
      simp only [List.mem_cons]
      tauto

theorem mem_eraseReps {α : Type} [BEq α] [LawfulBEq α] {x : α} {as : List α} :
    x ∈ as.eraseReps ↔ x ∈ as := by
  cases as with
  | nil => rfl
  | cons a as => simp [List.eraseReps, List.eraseRepsBy, mem_eraseRepsBy_loop]

theorem mem_names {e : Expr} {name : String} :
    name ∈ e.names ↔ ∃ n ∈ e.walk, n.ownName? = some name := by
  rw [names, mem_eraseReps, List.mem_mergeSort, List.mem_filterMap]

/-! ## Replacement -/

mutual
/-- A property holds after a replacement if the step gives it to every expression whose
parts have it. -/
theorem replace_induction {step? : Expr → Option Expr}
    (h : ∀ e, (∀ c ∈ e.parts, p c) → p ((step? e).getD e)) (e : Expr) : p (e.replace step?) := by
  cases e with
  | group b => exact h _ (List.forall_mem_singleton.2 (replace_induction h b))
  | product fs => exact h (.product (replaceAll step? fs)) (replaceAll_induction h fs)
  | sum ts => exact h (.sum (replaceAll step? ts)) (replaceAll_induction h ts)
  | _ => exact h _ (List.forall_mem_nil _)

theorem replaceAll_induction {step? : Expr → Option Expr}
    (h : ∀ e, (∀ c ∈ e.parts, p c) → p ((step? e).getD e)) (es : List Expr) :
    ∀ e ∈ replaceAll step? es, p e := by
  cases es with
  | nil => exact List.forall_mem_nil _
  | cons e es =>
    rw [replaceAll, List.forall_mem_cons]
    exact ⟨replace_induction h e, replaceAll_induction h es⟩
end

/-- The step's replacements have the property in all parts if the expression has. -/
def KeepsParts (p : Expr → Prop) (step? : Expr → Option Expr) : Prop :=
  ∀ e e', step? e = some e' → EveryPart p e → EveryPart p e'

/-- The property of a group, a product or a sum depends on the number of its parts only. -/
structure ShapeProperty (p : Expr → Prop) : Prop where
  group : ∀ b c, p (.group b) → p (.group c)
  product : ∀ fs gs, fs.length = gs.length → p (.product fs) → p (.product gs)
  sum : ∀ ts us, ts.length = us.length → p (.sum ts) → p (.sum us)

/-- Groups, products and sums have the property whatever their parts. -/
structure LeafProperty (p : Expr → Prop) : Prop where
  group : ∀ b, p (.group b)
  product : ∀ fs, p (.product fs)
  sum : ∀ ts, p (.sum ts)

theorem LeafProperty.everyPart_toExpr (hp : LeafProperty p) (hconst : ∀ v, p (.const v))
    {t : Summand} (hpowers : ∀ q ∈ t.powers, p (.power q.1 q.2))
    (hsymbols : ∀ n ∈ t.symbols, p (.symbol n)) : EveryPart p t.toExpr := by
  unfold Summand.toExpr
  split
  · exact everyPart_const.2 (hconst 0)
  · refine everyPart_product.2 ⟨hp.product _, ?_⟩
    simp only [List.forall_mem_cons, List.forall_mem_append, List.forall_mem_map]
    exact ⟨everyPart_const.2 (hconst _), fun q hq => everyPart_power.2 (hpowers q hq),
      fun n hn => everyPart_symbol.2 (hsymbols n hn)⟩

theorem LeafProperty.everyPart_ofTermList (hp : LeafProperty p) {ts : List Summand}
    (h : ∀ t ∈ ts, EveryPart p t.toExpr) : EveryPart p (ofTermList ts) :=
  everyPart_sum.2 ⟨hp.sum _, List.forall_mem_map.2 h⟩

theorem LeafProperty.shape (hp : LeafProperty p) : ShapeProperty p :=
  ⟨fun _ c _ => hp.group c, fun _ gs _ _ => hp.product gs, fun _ us _ _ => hp.sum us⟩

theorem KeepsParts.getD {step? : Expr → Option Expr} (hstep : KeepsParts p step?) {e : Expr}
    (h : EveryPart p e) : EveryPart p ((step? e).getD e) := by
  cases he : step? e with
  | none => exact h
  | some e' => exact hstep e e' he h

/-- What stands in the place of an expression keeps the property of all parts, and the relation
passes from the parts of an expression to the expression. -/
structure Compositional (p : Expr → Prop) (R : Expr → Expr → Prop) : Prop where
  keeps : ∀ {e e'}, R e e' → EveryPart p e'
  trans : ∀ {e e' e''}, R e e' → R e' e'' → R e e''
  group : ∀ {b b'}, EveryPart p (.group b) → R b b' → R (.group b) (.group b')
  product : ∀ {fs fs'}, EveryPart p (.product fs) → List.Forall₂ R fs fs' →
    R (.product fs) (.product fs')
  sum : ∀ {ts ts'}, EveryPart p (.sum ts) → List.Forall₂ R ts ts' → R (.sum ts) (.sum ts')

theorem forall_of_forall₂ {R : Expr → Expr → Prop} {p q : Expr → Prop} {es es' : List Expr}
    (hes : List.Forall₂ R es es') (h : ∀ e e', R e e' → p e → q e') (hp : ∀ e ∈ es, p e) :
    ∀ e' ∈ es', q e' := by
  induction hes with
  | nil => exact List.forall_mem_nil _
  | cons he _ ih =>
    rw [List.forall_mem_cons] at hp ⊢
    exact ⟨h _ _ he hp.1, ih hp.2⟩

/-- What stands in the place of expressions has what the relation gives it. -/
theorem forall_right_of_forall₂ {R : Expr → Expr → Prop} {q : Expr → Prop} {es es' : List Expr}
    (hes : List.Forall₂ R es es') (h : ∀ e e', R e e' → q e') : ∀ e' ∈ es', q e' :=
  forall_of_forall₂ (p := fun _ => True) hes (fun e e' hR _ => h e e' hR) fun _ _ => trivial

theorem forall₂_tail {R : Expr → Expr → Prop} {es es' : List Expr} (h : List.Forall₂ R es es') :
    List.Forall₂ R es.tail es'.tail := by
  cases h with
  | nil => exact .nil
  | cons _ h => exact h

mutual
/-- A relation that holds wherever the step is taken holds when it is taken everywhere. -/
theorem Compositional.replace {R : Expr → Expr → Prop} {step? : Expr → Option Expr}
    (hR : Compositional p R) (hstep : ∀ e, EveryPart p e → R e ((step? e).getD e)) {e : Expr}
    (h : EveryPart p e) : R e (e.replace step?) := by
  cases e with
  | group b =>
    have hb := hR.group h (hR.replace hstep (everyPart_group.1 h).2)
    exact hR.trans hb (hstep _ (hR.keeps hb))
  | product fs =>
    have hfs := hR.product h (hR.replaceAll hstep (everyPart_product.1 h).2)
    exact hR.trans hfs (hstep _ (hR.keeps hfs))
  | sum ts =>
    have hts := hR.sum h (hR.replaceAll hstep (everyPart_sum.1 h).2)
    exact hR.trans hts (hstep _ (hR.keeps hts))
  | _ => exact hstep _ h

theorem Compositional.replaceAll {R : Expr → Expr → Prop} {step? : Expr → Option Expr}
    (hR : Compositional p R) (hstep : ∀ e, EveryPart p e → R e ((step? e).getD e))
    {es : List Expr} (h : ∀ e ∈ es, EveryPart p e) :
    List.Forall₂ R es (replaceAll step? es) := by
  cases es with
  | nil => exact .nil
  | cons e es =>
    rw [List.forall_mem_cons] at h
    exact .cons (hR.replace hstep h.1) (hR.replaceAll hstep h.2)
end

theorem ShapeProperty.compositional (hp : ShapeProperty p) :
    Compositional p fun _ e' => EveryPart p e' where
  keeps h := h
  trans _ h := h
  group h hb := everyPart_group.2 ⟨hp.group _ _ (everyPart_group.1 h).1, hb⟩
  product h hfs := everyPart_product.2
    ⟨hp.product _ _ hfs.length_eq (everyPart_product.1 h).1,
      forall_right_of_forall₂ hfs fun _ _ h => h⟩
  sum h hts := everyPart_sum.2
    ⟨hp.sum _ _ hts.length_eq (everyPart_sum.1 h).1,
      forall_right_of_forall₂ hts fun _ _ h => h⟩

theorem everyPart_replace {step? : Expr → Option Expr} (hp : ShapeProperty p)
    (hstep : KeepsParts p step?) {e : Expr} (h : EveryPart p e) :
    EveryPart p (e.replace step?) :=
  hp.compositional.replace (fun _ he => hstep.getD he) h

mutual
theorem everyPart_factors {e : Expr} (h : EveryPart p e) : ∀ f ∈ e.factors, EveryPart p f := by
  cases e with
  | product fs => exact everyPart_factorsAll (everyPart_product.1 h).2
  | _ =>
    intro f hf
    rw [List.mem_singleton.1 hf]
    exact h

theorem everyPart_factorsAll {es : List Expr} (h : ∀ e ∈ es, EveryPart p e) :
    ∀ f ∈ factorsAll es, EveryPart p f := by
  cases es with
  | nil => exact h
  | cons e es =>
    rw [List.forall_mem_cons] at h
    rw [factorsAll, List.forall_mem_append]
    exact ⟨everyPart_factors h.1, everyPart_factorsAll h.2⟩
end

theorem everyPart_ofFactors {es : List Expr} (hp : es.length ≠ 1 → p (.product es))
    (h : ∀ e ∈ es, EveryPart p e) : EveryPart p (ofFactors es) := by
  unfold ofFactors
  split
  · exact h _ List.mem_cons_self
  · next hne =>
    refine everyPart_product.2 ⟨hp fun hone => ?_, h⟩
    obtain ⟨e, he⟩ := List.length_eq_one_iff.1 hone
    exact hne e he

theorem everyPart_ofTerms {es : List Expr} (hp : es.length ≠ 1 → p (.sum es))
    (h : ∀ e ∈ es, EveryPart p e) : EveryPart p (ofTerms es) := by
  unfold ofTerms
  split
  · exact h _ List.mem_cons_self
  · next hne =>
    refine everyPart_sum.2 ⟨hp fun hone => ?_, h⟩
    obtain ⟨e, he⟩ := List.length_eq_one_iff.1 hone
    exact hne e he

end Expr

open Expr

/-- The property passes to all that the rules put in place of a leaf. -/
structure Inherited (map : AliasMap) (p : Expr → Prop) : Prop extends LeafProperty p where
  zero : p .zero
  one : p .one
  symbol : ∀ b, p (.power b 1) → p (.symbol b)
  powerAlias : ∀ b k n, map.lookup (b, k) = some n → p (.power b k) → p (.alias n (.power b k))
  symbolAlias : ∀ b n, map.lookup (b, 1) = some n → p (.symbol b) → p (.alias n (.symbol b))

namespace Inherited

variable {map : AliasMap} {p : Expr → Prop} (hp : Inherited map p)

include hp

theorem keepsParts_zeroPower : KeepsParts p Rule.zeroPower.step? := by
  intro e e' he _
  cases e with
  | power b k =>
    simp only [Rule.zeroPower] at he
    split at he
    · injection he with he
      exact he ▸ everyPart_const.2 hp.one
    · exact absurd he (by simp)
  | _ => exact absurd he (by simp [Rule.zeroPower])

theorem keepsParts_unitPower : KeepsParts p Rule.unitPower.step? := by
  intro e e' he h
  cases e with
  | power b k =>
    simp only [Rule.unitPower] at he
    split at he
    · next hk =>
      injection he with he
      rw [hk, everyPart_power] at h
      exact he ▸ everyPart_symbol.2 (hp.symbol b h)
    · exact absurd he (by simp)
  | _ => exact absurd he (by simp [Rule.unitPower])

theorem keepsParts_unitFactors : KeepsParts p Rule.unitFactors.step? := by
  intro e e' he h
  unfold Rule.unitFactors at he
  dsimp only at he
  split at he
  · next fs =>
    have hfs : ∀ f ∈ (factorsAll fs).filter (!·.isOne), EveryPart p f := fun f hf =>
      everyPart_factorsAll (everyPart_product.1 h).2 f (List.mem_of_mem_filter hf)
    split at he
    · injection he with he
      exact he ▸ everyPart_const.2 hp.one
    · injection he with he
      exact he ▸ everyPart_ofFactors (fun _ => hp.product _) hfs
  · injection he with he
    exact he ▸ (everyPart_sum.1 h).2 _ List.mem_cons_self
  · cases he

theorem keepsParts_zeroTerms : KeepsParts p Rule.zeroTerms.step? := by
  intro e e' he h
  unfold Rule.zeroTerms at he
  dsimp only at he
  split at he
  · next fs =>
    injection he with he
    subst he
    split
    · exact everyPart_const.2 hp.zero
    · exact everyPart_ofFactors (fun _ => hp.product _)
        (everyPart_factorsAll (everyPart_product.1 h).2)
  · split at he
    · injection he with he
      exact he ▸ everyPart_const.2 hp.zero
    · cases he
  · injection he with he
    exact he ▸ everyPart_const.2 hp.zero
  · next t ts =>
    injection he with he
    have hts := (everyPart_sum.1 h).2
    rw [List.forall_mem_cons] at hts
    refine he ▸ everyPart_ofTerms (fun _ => hp.sum _) ?_
    rw [List.forall_mem_cons]
    exact ⟨hts.1, fun f hf => hts.2 f (List.mem_of_mem_filter hf)⟩
  · cases he

theorem keepsParts_aliases : KeepsParts p (Rule.aliases map).step? := by
  intro e e' he h
  cases e with
  | power b k =>
    obtain ⟨n, hn, rfl⟩ := Option.map_eq_some_iff.1 he
    exact everyPart_alias.2 (hp.powerAlias b k n hn (everyPart_power.1 h))
  | symbol b =>
    obtain ⟨n, hn, rfl⟩ := Option.map_eq_some_iff.1 he
    exact everyPart_alias.2 (hp.symbolAlias b n hn (everyPart_symbol.1 h))
  | _ => exact absurd he (by simp [Rule.aliases])

theorem keepsParts_standard {r : Rule} (hr : r ∈ Rule.standard map) : KeepsParts p r.step? := by
  simp only [Rule.standard, List.mem_cons, List.not_mem_nil, or_false] at hr
  rcases hr with rfl | rfl | rfl | rfl | rfl
  · exact hp.keepsParts_zeroPower
  · exact hp.keepsParts_unitPower
  · exact hp.keepsParts_unitFactors
  · exact hp.keepsParts_zeroTerms
  · exact hp.keepsParts_aliases

theorem everyPart_apply {r : Rule} (hr : r ∈ Rule.standard map) {e : Expr} (h : EveryPart p e) :
    EveryPart p (r.apply e) :=
  everyPart_replace hp.toLeafProperty.shape (hp.keepsParts_standard hr) h

theorem everyPart_rules {rules : List Rule} (hrules : ∀ r ∈ rules, r ∈ Rule.standard map)
    {e : Expr} (h : EveryPart p e) : EveryPart p (simplifyWith rules e) := by
  induction rules generalizing e with
  | nil => exact h
  | cons r rs ih =>
    rw [List.forall_mem_cons] at hrules
    rw [simplifyWith_cons]
    exact ih hrules.2 (hp.everyPart_apply hrules.1 h)

/-- The property of all parts outlasts the simplification. -/
theorem everyPart_simplifyWith {e : Expr} (h : EveryPart p e) :
    EveryPart p (simplifyWith (Rule.standard map) e) :=
  hp.everyPart_rules (fun _ hr => hr) h

end Inherited

end GaussianIntegrals
