/-
  Which terms of a sum the simplification keeps. An expression vanishes if it is 0 by its form:
  the constant 0, a group or a sum of such expressions, or a product with such a factor
  (`vanishes`). No rule changes this, and a simplified expression that vanishes is the literal 0
  (`simplify_eq_zero_iff`). So a sum keeps its first term and those of the others that do not
  vanish, in their order, each simplified by itself (`simplify_sum`). A prefactor stays beside a
  sum that keeps two terms or more (`simplify_prefactor_sum`).
-/
import GaussianIntegrals.Proofs.NormalForm

namespace GaussianIntegrals

namespace Expr

mutual
/-- The expression is 0 by its form, whatever the values of the symbols. -/
def vanishes : Expr → Bool
  | .const v => v == 0
  | .group b => b.vanishes
  | .product fs => anyVanishes fs
  | .sum ts => allVanish ts
  | _ => false

/-- An expression of the list vanishes. -/
def anyVanishes : List Expr → Bool
  | [] => false
  | e :: es => e.vanishes || anyVanishes es

/-- All expressions of the list vanish. -/
def allVanish : List Expr → Bool
  | [] => true
  | e :: es => e.vanishes && allVanish es
end

theorem anyVanishes_eq (es : List Expr) : anyVanishes es = es.any vanishes := by
  induction es with
  | nil => rfl
  | cons e es ih => rw [anyVanishes, ih, List.any_cons]

theorem allVanish_eq (es : List Expr) : allVanish es = es.all vanishes := by
  induction es with
  | nil => rfl
  | cons e es ih => rw [allVanish, ih, List.all_cons]

theorem vanishes_product (fs : List Expr) : (product fs).vanishes = fs.any vanishes :=
  anyVanishes_eq fs

theorem vanishes_product_of_forall {fs : List Expr} (h : ∀ f ∈ fs, f.vanishes = false) :
    (product fs).vanishes = false := by
  rw [vanishes_product]
  exact List.any_eq_false.2 fun f hf => Bool.eq_false_iff.1 (h f hf)

theorem vanishes_sum (ts : List Expr) : (sum ts).vanishes = ts.all vanishes := allVanish_eq ts

theorem vanishes_of_isZero {e : Expr} (h : e.isZero = true) : e.vanishes = true := by
  fun_induction isZero e with
  | case1 b ih => exact ih h
  | case2 v => exact h
  | case3 e => cases h

theorem vanishes_of_isOne {e : Expr} (h : e.isOne = true) : e.vanishes = false := by
  cases e with
  | const v =>
    rw [isOne, beq_iff_eq] at h
    rw [h]
    rfl
  | _ => cases h

/-! ## Opened products and shortened sums -/

mutual
theorem any_factors (e : Expr) : e.factors.any vanishes = e.vanishes := by
  cases e with
  | product fs =>
    rw [vanishes_product]
    exact any_factorsAll fs
  | _ => rw [factors_eq_singleton rfl, List.any_cons, List.any_nil, Bool.or_false]

theorem any_factorsAll (es : List Expr) : (factorsAll es).any vanishes = es.any vanishes := by
  cases es with
  | nil => rfl
  | cons e es => rw [factorsAll, List.any_append, any_factors e, any_factorsAll es, List.any_cons]
end

theorem vanishes_ofFactors (es : List Expr) : (ofFactors es).vanishes = es.any vanishes := by
  unfold ofFactors
  split
  · next e => rw [List.any_cons, List.any_nil, Bool.or_false]
  · exact vanishes_product es

theorem vanishes_ofTerms (es : List Expr) : (ofTerms es).vanishes = es.all vanishes := by
  unfold ofTerms
  split
  · next e => rw [List.all_cons, List.all_nil, Bool.and_true]
  · exact vanishes_sum es

/-- Factors that do not vanish can go. -/
theorem any_filter_eq {es : List Expr} {keep : Expr → Bool}
    (h : ∀ e, keep e = false → e.vanishes = false) :
    (es.filter keep).any vanishes = es.any vanishes := by
  rw [Bool.eq_iff_iff, List.any_eq_true, List.any_eq_true]
  constructor
  · rintro ⟨e, he, hv⟩
    exact ⟨e, List.mem_of_mem_filter he, hv⟩
  · rintro ⟨e, he, hv⟩
    refine ⟨e, List.mem_filter.2 ⟨he, ?_⟩, hv⟩
    by_contra hkeep
    rw [h e (Bool.eq_false_iff.2 hkeep)] at hv
    cases hv

/-- Terms that vanish can go. -/
theorem all_filter_eq {es : List Expr} {keep : Expr → Bool}
    (h : ∀ e, keep e = false → e.vanishes = true) :
    (es.filter keep).all vanishes = es.all vanishes := by
  rw [Bool.eq_iff_iff, List.all_eq_true, List.all_eq_true]
  constructor
  · intro hall e he
    by_cases hkeep : keep e = true
    · exact hall e (List.mem_filter.2 ⟨he, hkeep⟩)
    · exact h e (Bool.eq_false_iff.2 hkeep)
  · exact fun hall e he => hall e (List.mem_of_mem_filter he)

end Expr

open Expr

/-! ## The rules -/

namespace Rule

/-- What the step puts in the place of an expression vanishes when the expression does. -/
def KeepsVanishing (r : Rule) : Prop := ∀ e e', r.step? e = some e' → e'.vanishes = e.vanishes

/-- The rule puts single expressions in the place of single ones, none of them 0. -/
def OnLeaves (r : Rule) : Prop :=
  ∀ e e', r.step? e = some e' → e.vanishes = false ∧ e'.vanishes = false ∧ e'.parts = []

theorem onLeaves_zeroPower : zeroPower.OnLeaves := by
  intro e e' he
  cases e with
  | power b k =>
    simp only [zeroPower, Option.ite_none_right_eq_some, Option.some.injEq] at he
    rw [← he.2]
    exact ⟨rfl, rfl, rfl⟩
  | _ => exact absurd he (by simp [zeroPower])

theorem onLeaves_unitPower : unitPower.OnLeaves := by
  intro e e' he
  cases e with
  | power b k =>
    simp only [unitPower, Option.ite_none_right_eq_some, Option.some.injEq] at he
    rw [← he.2]
    exact ⟨rfl, rfl, rfl⟩
  | _ => exact absurd he (by simp [unitPower])

theorem onLeaves_aliases (map : AliasMap) : (aliases map).OnLeaves := by
  intro e e' he
  cases e with
  | power b k =>
    obtain ⟨n, -, rfl⟩ := Option.map_eq_some_iff.1 he
    exact ⟨rfl, rfl, rfl⟩
  | symbol b =>
    obtain ⟨n, -, rfl⟩ := Option.map_eq_some_iff.1 he
    exact ⟨rfl, rfl, rfl⟩
  | _ => exact absurd he (by simp [aliases])

theorem OnLeaves.keepsVanishing {r : Rule} (h : r.OnLeaves) : r.KeepsVanishing := by
  intro e e' he
  obtain ⟨hvanishes, hvanishes', -⟩ := h e e' he
  rw [hvanishes, hvanishes']

theorem keepsVanishing_unitFactors : unitFactors.KeepsVanishing := by
  intro e e' he
  match e with
  | .product fs =>
    have hfilter : ((factorsAll fs).filter (!·.isOne)).any vanishes =
        (Expr.product fs).vanishes := by
      rw [any_filter_eq fun f hf => vanishes_of_isOne (by simpa using hf), any_factorsAll,
        vanishes_product]
    rw [unitFactors_product, Option.some.injEq] at he
    rw [← he, ← hfilter]
    split
    · next hnil => rw [hnil]; rfl
    · exact vanishes_ofFactors _
  | .sum [t] =>
    obtain rfl := Option.some.inj he
    rw [vanishes_sum, List.all_cons, List.all_nil, Bool.and_true]
  | .sum [] | .sum (_ :: _ :: _) | .const _ | .symbol _ | .power _ _ | .alias _ _ | .group _ =>
    exact absurd he (by simp [unitFactors])

theorem keepsVanishing_zeroTerms : zeroTerms.KeepsVanishing := by
  intro e e' he
  match e with
  | .product fs =>
    obtain rfl := Option.some.inj he
    rw [vanishes_product, ← any_factorsAll]
    split
    · next hzero =>
      obtain ⟨f, hf, h⟩ := List.any_eq_true.1 hzero
      exact (List.any_eq_true.2 ⟨f, hf, vanishes_of_isZero h⟩).symm
    · exact vanishes_ofFactors _
  | .group b =>
    simp only [zeroTerms, Option.ite_none_right_eq_some, Option.some.injEq] at he
    rw [← he.2]
    exact (vanishes_of_isZero he.1).symm
  | .sum [] =>
    obtain rfl := Option.some.inj he
    rfl
  | .sum (t :: ts) =>
    obtain rfl := Option.some.inj he
    rw [vanishes_ofTerms, vanishes_sum, List.all_cons, List.all_cons,
      all_filter_eq fun u hu => vanishes_of_isZero (by simpa using hu)]
  | .const _ | .symbol _ | .power _ _ | .alias _ _ => exact absurd he (by simp [zeroTerms])

theorem keepsVanishing_standard {map : AliasMap} {r : Rule} (hr : r ∈ standard map) :
    r.KeepsVanishing := by
  simp only [standard, List.mem_cons, List.not_mem_nil, or_false] at hr
  rcases hr with rfl | rfl | rfl | rfl | rfl
  · exact onLeaves_zeroPower.keepsVanishing
  · exact onLeaves_unitPower.keepsVanishing
  · exact keepsVanishing_unitFactors
  · exact keepsVanishing_zeroTerms
  · exact (onLeaves_aliases map).keepsVanishing

theorem KeepsVanishing.getD {r : Rule} (h : r.KeepsVanishing) (e : Expr) :
    ((r.step? e).getD e).vanishes = e.vanishes := by
  cases he : r.step? e with
  | none => rfl
  | some e' => exact h e e' he

end Rule

theorem any_vanishes_eq_of_forall₂ {es es' : List Expr}
    (h : List.Forall₂ (fun e e' : Expr => e'.vanishes = e.vanishes) es es') :
    es'.any vanishes = es.any vanishes := by
  induction h with
  | nil => rfl
  | cons he _ ih => rw [List.any_cons, List.any_cons, he, ih]

theorem all_vanishes_eq_of_forall₂ {es es' : List Expr}
    (h : List.Forall₂ (fun e e' : Expr => e'.vanishes = e.vanishes) es es') :
    es'.all vanishes = es.all vanishes := by
  induction h with
  | nil => rfl
  | cons he _ ih => rw [List.all_cons, List.all_cons, he, ih]

theorem everyPart_true (e : Expr) : EveryPart (fun _ => True) e := fun _ _ => trivial

theorem compositional_vanishes :
    Compositional (fun _ => True) fun e e' : Expr => e'.vanishes = e.vanishes where
  keeps _ := everyPart_true _
  trans h h' := h'.trans h
  group _ h := h
  product _ h := by rw [vanishes_product, vanishes_product, any_vanishes_eq_of_forall₂ h]
  sum _ h := by rw [vanishes_sum, vanishes_sum, all_vanishes_eq_of_forall₂ h]

theorem Rule.KeepsVanishing.apply {r : Rule} (h : r.KeepsVanishing) (e : Expr) :
    (r.apply e).vanishes = e.vanishes :=
  compositional_vanishes.replace (fun e _ => h.getD e) (everyPart_true e)

theorem vanishes_simplifyWith {rules : List Rule} (h : ∀ r ∈ rules, r.KeepsVanishing) (e : Expr) :
    (simplifyWith rules e).vanishes = e.vanishes := by
  induction rules generalizing e with
  | nil => rfl
  | cons r rs ih =>
    rw [List.forall_mem_cons] at h
    rw [simplifyWith_cons, ih h.2, h.1.apply]

/-! ## Zeros of simplified expressions -/

mutual
/-- Where the rule for zero terms has nothing left to do, only zeros vanish. -/
theorem vanishes_eq_isZero {e : Expr} (h : EveryPart Rule.zeroTerms.Leaves e) :
    e.vanishes = e.isZero := by
  cases e with
  | group b =>
    have hb : b.vanishes = b.isZero := vanishes_eq_isZero (everyPart_group.1 h).2
    exact hb
  | product fs =>
    obtain ⟨hself, hparts⟩ := everyPart_product.1 h
    have hfs : ∀ f ∈ fs, f.vanishes = false := fun f hf =>
      (vanishes_eq_isZero_of_mem hparts f hf).trans
        ((Rule.leaves_zeroTerms_product.1 hself).2 f hf).2
    exact vanishes_product_of_forall hfs
  | sum ts =>
    obtain ⟨hself, hparts⟩ := everyPart_sum.1 h
    obtain ⟨hlength, htail⟩ := Rule.leaves_zeroTerms_sum.1 hself
    have hne : ts.tail ≠ [] := by
      rw [← List.length_pos_iff, List.length_tail]
      omega
    obtain ⟨t, ht⟩ := List.exists_mem_of_ne_nil _ hne
    have hmem := List.mem_of_mem_tail ht
    have hvanishes : t.vanishes = false :=
      (vanishes_eq_isZero_of_mem hparts t hmem).trans (htail t ht)
    rw [vanishes_sum]
    exact List.all_eq_false.2 ⟨t, hmem, Bool.eq_false_iff.1 hvanishes⟩
  | _ => rfl

theorem vanishes_eq_isZero_of_mem {es : List Expr}
    (h : ∀ e ∈ es, EveryPart Rule.zeroTerms.Leaves e) : ∀ e ∈ es, e.vanishes = e.isZero := by
  cases es with
  | nil => exact List.forall_mem_nil _
  | cons e es =>
    rw [List.forall_mem_cons] at h ⊢
    exact ⟨vanishes_eq_isZero h.1, vanishes_eq_isZero_of_mem h.2⟩
end

/-- The rule for zero terms leaves no zeros in groups. -/
theorem eq_zero_of_leaves_zeroTerms {e : Expr} (h : EveryPart Rule.zeroTerms.Leaves e)
    (hzero : e.isZero = true) : e = .zero := by
  cases e with
  | const v => rw [beq_iff_eq.1 hzero, Expr.zero]
  | group b =>
    have hbody := Rule.leaves_zeroTerms_group.1 (everyPart_group.1 h).1
    rw [isZero, hbody] at hzero
    cases hzero
  | _ => cases hzero

theorem vanishes_simplify (map : AliasMap) (e : Expr) :
    (simplify map e).vanishes = e.vanishes :=
  vanishes_simplifyWith (fun _ => Rule.keepsVanishing_standard) e

theorem simplify_eq_zero_iff (map : AliasMap) (e : Expr) :
    simplify map e = .zero ↔ e.vanishes = true := by
  have htidy := tidy_simplify map e
  rw [← vanishes_simplify map e]
  constructor
  · intro h
    rw [h]
    rfl
  · intro h
    rw [vanishes_eq_isZero htidy.zeroTerms] at h
    exact eq_zero_of_leaves_zeroTerms htidy.zeroTerms h

/-! ## Sums and prefactors -/

namespace Rule

/-- The rule replaces no products and no sums. -/
structure SparesLists (r : Rule) : Prop where
  product : ∀ fs, r.step? (.product fs) = none
  sum : ∀ ts, r.step? (.sum ts) = none

variable {r : Rule}

theorem SparesLists.apply_product (h : r.SparesLists) (fs : List Expr) :
    r.apply (.product fs) = .product (fs.map r.apply) := by
  rw [apply, replace, replaceAll_eq_map, h.product]
  rfl

theorem SparesLists.apply_sum (h : r.SparesLists) (ts : List Expr) :
    r.apply (.sum ts) = .sum (ts.map r.apply) := by
  rw [apply, replace, replaceAll_eq_map, h.sum]
  rfl

theorem sparesLists_zeroPower : zeroPower.SparesLists := ⟨fun _ => rfl, fun _ => rfl⟩

theorem sparesLists_unitPower : unitPower.SparesLists := ⟨fun _ => rfl, fun _ => rfl⟩

theorem sparesLists_aliases (map : AliasMap) : (aliases map).SparesLists :=
  ⟨fun _ => rfl, fun _ => rfl⟩

theorem SparesLists.apply_ofTerms (h : r.SparesLists) (ts : List Expr) :
    r.apply (ofTerms ts) = ofTerms (ts.map r.apply) := by
  match ts with
  | [t] => rfl
  | [] | _ :: _ :: _ => exact h.apply_sum _

theorem unitFactors_apply_sum (ts : List Expr) :
    unitFactors.apply (.sum ts) = ofTerms (ts.map unitFactors.apply) := by
  rw [apply, replace, replaceAll_eq_map]
  match ts with
  | [t] | [] | _ :: _ :: _ => rfl

theorem zeroTerms_apply_ofTerms (t : Expr) (ts : List Expr) :
    zeroTerms.apply (ofTerms (t :: ts)) =
      ofTerms (zeroTerms.apply t :: (ts.map zeroTerms.apply).filter (!·.isZero)) := by
  cases ts with
  | nil => rfl
  | cons u us =>
    rw [ofTerms_of_length (by simp), apply, replace, replaceAll_eq_map]
    rfl

end Rule

/-- The expression after the rules for powers and unit factors. -/
def withoutUnits (e : Expr) : Expr :=
  Rule.unitFactors.apply (Rule.unitPower.apply (Rule.zeroPower.apply e))

theorem simplify_eq_withoutUnits (map : AliasMap) (e : Expr) :
    simplify map e = (Rule.aliases map).apply (Rule.zeroTerms.apply (withoutUnits e)) := rfl

theorem withoutUnits_sum (ts : List Expr) :
    withoutUnits (.sum ts) = ofTerms (ts.map withoutUnits) := by
  rw [withoutUnits, Rule.sparesLists_zeroPower.apply_sum, Rule.sparesLists_unitPower.apply_sum,
    Rule.unitFactors_apply_sum, List.map_map, List.map_map]
  rfl

theorem isZero_zeroTerms_apply (e : Expr) :
    (Rule.zeroTerms.apply (withoutUnits e)).isZero = e.vanishes := by
  have hrules : ∀ r ∈ [Rule.zeroPower, .unitPower, .unitFactors, .zeroTerms],
      r ∈ Rule.standard [] := by simp [Rule.standard]
  have hvanishes : (Rule.zeroTerms.apply (withoutUnits e)).vanishes = e.vanishes :=
    vanishes_simplifyWith (fun r hr => Rule.keepsVanishing_standard (hrules r hr)) e
  rw [← vanishes_eq_isZero (Rule.settles_zeroTerms _), hvanishes]

theorem zeroTerms_apply_withoutUnits_sum (t : Expr) (ts : List Expr) :
    Rule.zeroTerms.apply (withoutUnits (.sum (t :: ts))) =
      ofTerms ((t :: ts.filter (!·.vanishes)).map (Rule.zeroTerms.apply ∘ withoutUnits)) := by
  have hkept : ((ts.map withoutUnits).map Rule.zeroTerms.apply).filter (!·.isZero) =
      (ts.filter (!·.vanishes)).map (Rule.zeroTerms.apply ∘ withoutUnits) := by
    rw [List.map_map, List.filter_map]
    congr 1
    refine List.filter_congr fun u _ => ?_
    rw [Function.comp_apply, Function.comp_apply, isZero_zeroTerms_apply]
  rw [withoutUnits_sum, List.map_cons, Rule.zeroTerms_apply_ofTerms, hkept]
  rfl

/-- A sum keeps its first term and those of the others that do not vanish. -/
theorem simplify_sum (map : AliasMap) (t : Expr) (ts : List Expr) :
    simplify map (.sum (t :: ts)) =
      ofTerms ((t :: ts.filter (!·.vanishes)).map (simplify map)) := by
  rw [simplify_eq_withoutUnits, zeroTerms_apply_withoutUnits_sum,
    (Rule.sparesLists_aliases map).apply_ofTerms, List.map_map]
  rfl

/-- A prefactor stays beside its factor as long as that is no product and neither 1 nor 0. -/
theorem simplify_prefactor (map : AliasMap) (p : String) {e : Expr} (hzero : e.vanishes = false)
    (hone : (withoutUnits e).isOne = false) (hproduct : (withoutUnits e).isProduct = false)
    (hstays : (Rule.zeroTerms.apply (withoutUnits e)).isProduct = false) :
    simplify map (.product [.symbol p, e]) =
      .product [simplify map (.symbol p), simplify map e] := by
  -- only these two rules could take the product apart, and both have nothing to do
  have hunits : withoutUnits (.product [.symbol p, e]) = .product [.symbol p, withoutUnits e] := by
    have hleaves : Rule.unitFactors.Leaves (.product [.symbol p, withoutUnits e]) :=
      Rule.leaves_unitFactors_product.2 ⟨Nat.le_refl 2,
        List.forall_mem_cons.2 ⟨⟨rfl, rfl⟩, List.forall_mem_singleton.2 ⟨hproduct, hone⟩⟩⟩
    rw [withoutUnits, Rule.sparesLists_zeroPower.apply_product,
      Rule.sparesLists_unitPower.apply_product]
    exact hleaves
  have hzeros : Rule.zeroTerms.apply (.product [.symbol p, withoutUnits e]) =
      .product [.symbol p, Rule.zeroTerms.apply (withoutUnits e)] := by
    have hleaves : Rule.zeroTerms.Leaves
        (.product [.symbol p, Rule.zeroTerms.apply (withoutUnits e)]) :=
      Rule.leaves_zeroTerms_product.2 ⟨by simp, List.forall_mem_cons.2 ⟨⟨rfl, rfl⟩,
        List.forall_mem_singleton.2 ⟨hstays, (isZero_zeroTerms_apply e).trans hzero⟩⟩⟩
    exact hleaves
  rw [simplify_eq_withoutUnits, hunits, hzeros, (Rule.sparesLists_aliases map).apply_product]
  rfl

theorem length_kept_ne_one {ts : List Expr} (h : ts.all vanishes = false) (t : Expr) :
    (t :: ts.filter (!·.vanishes)).length ≠ 1 := by
  obtain ⟨u, hu, hvanishes⟩ := List.all_eq_false.1 h
  have hmem : u ∈ ts.filter (!·.vanishes) := List.mem_filter.2 ⟨hu, by simpa using hvanishes⟩
  have hpos := List.length_pos_of_mem hmem
  rw [List.length_cons]
  omega

/-- A sum with another term than the first that does not vanish stays a sum. -/
theorem simplify_sum_of_lasting (map : AliasMap) (t : Expr) {ts : List Expr}
    (h : ts.all vanishes = false) :
    simplify map (.sum (t :: ts)) = .sum ((t :: ts.filter (!·.vanishes)).map (simplify map)) := by
  rw [simplify_sum, ofTerms_of_length]
  rw [List.length_map]
  exact length_kept_ne_one h t

theorem simplify_prefactor_sum (map : AliasMap) (p : String) (t : Expr) {ts : List Expr}
    (h : ts.all vanishes = false) :
    simplify map (.product [.symbol p, .sum (t :: ts)]) =
      .product [simplify map (.symbol p), simplify map (.sum (t :: ts))] := by
  have hunits : withoutUnits (.sum (t :: ts)) = .sum ((t :: ts).map withoutUnits) := by
    obtain ⟨u, hu, -⟩ := List.all_eq_false.1 h
    have hpos := List.length_pos_of_mem hu
    rw [withoutUnits_sum, ofTerms_of_length]
    rw [List.length_map, List.length_cons]
    omega
  have hzeros : (Rule.zeroTerms.apply (withoutUnits (.sum (t :: ts)))).isProduct = false := by
    rw [zeroTerms_apply_withoutUnits_sum, ofTerms_of_length]
    · rfl
    · rw [List.length_map]
      exact length_kept_ne_one h t
  have hvanishes : (Expr.sum (t :: ts)).vanishes = false := by
    rw [vanishes_sum, List.all_cons, h, Bool.and_false]
  exact simplify_prefactor map p hvanishes (by rw [hunits]; rfl) (by rw [hunits]; rfl) hzeros

end GaussianIntegrals
