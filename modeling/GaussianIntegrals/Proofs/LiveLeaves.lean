/-
  Which names are left when an expression has been simplified. The leaves of an expression are its
  symbols, powers and short names; a leaf is live unless a part around it vanishes (`liveLeaves`).

  A rule acts on each live leaf by itself, and so does any list of rules
  (`liveLeaves_simplifyWith`): products and sums are opened and shortened around the live leaves,
  and what a rule takes away has none. When the five rules have been applied in their order, all
  leaves are live (`mem_walk_simplify_iff`). Leaves that are not live have no such law: a rule for
  zeros may take them away or not, depending on the rules before it.
-/
import GaussianIntegrals.Proofs.KeptTerms

namespace GaussianIntegrals

namespace Expr

mutual
/-- The symbols, powers and short names in an expression that stand in no vanishing part, in their
order. -/
def liveLeaves : Expr → List Expr
  | .const _ => []
  | .group b => b.liveLeaves
  | .product fs => if anyVanishes fs then [] else liveLeavesAll fs
  | .sum ts => liveLeavesAll ts
  | e => [e]

/-- The live leaves of every expression of a list. -/
def liveLeavesAll : List Expr → List Expr
  | [] => []
  | e :: es => e.liveLeaves ++ liveLeavesAll es
end

theorem liveLeavesAll_eq (es : List Expr) : liveLeavesAll es = es.flatMap liveLeaves := by
  induction es with
  | nil => rfl
  | cons e es ih => rw [liveLeavesAll, ih, List.flatMap_cons]

theorem liveLeaves_product (fs : List Expr) :
    (product fs).liveLeaves = if (product fs).vanishes then [] else fs.flatMap liveLeaves := by
  rw [liveLeaves, liveLeavesAll_eq, vanishes]

theorem liveLeaves_product_of_forall {fs : List Expr} (h : ∀ f ∈ fs, f.vanishes = false) :
    (product fs).liveLeaves = fs.flatMap liveLeaves := by
  rw [liveLeaves_product, vanishes_product_of_forall h]
  rfl

theorem liveLeaves_sum (ts : List Expr) : (sum ts).liveLeaves = ts.flatMap liveLeaves :=
  liveLeavesAll_eq ts

theorem mem_liveLeaves_product {fs : List Expr} (h : (product fs).vanishes = false) {l : Expr} :
    l ∈ (product fs).liveLeaves ↔ ∃ f ∈ fs, l ∈ f.liveLeaves := by
  rw [liveLeaves_product, h]
  exact List.mem_flatMap

theorem mem_liveLeaves_sum {ts : List Expr} {l : Expr} :
    l ∈ (sum ts).liveLeaves ↔ ∃ t ∈ ts, l ∈ t.liveLeaves := by
  rw [liveLeaves_sum, List.mem_flatMap]

mutual
/-- What vanishes has no live leaves. -/
theorem liveLeaves_eq_nil {e : Expr} (h : e.vanishes = true) : e.liveLeaves = [] := by
  cases e with
  | const v => rfl
  | group b => exact liveLeaves_eq_nil (e := b) h
  | product fs => rw [liveLeaves_product, if_pos h]
  | sum ts =>
    rw [liveLeaves_sum]
    exact flatMap_liveLeaves_eq_nil (List.all_eq_true.1 ((vanishes_sum ts).symm.trans h))
  | _ => cases h

theorem flatMap_liveLeaves_eq_nil {es : List Expr} (h : ∀ e ∈ es, e.vanishes = true) :
    es.flatMap liveLeaves = [] := by
  cases es with
  | nil => rfl
  | cons e es =>
    rw [List.forall_mem_cons] at h
    rw [List.flatMap_cons, liveLeaves_eq_nil h.1, flatMap_liveLeaves_eq_nil h.2, List.append_nil]
end

theorem liveLeaves_of_ownName {l : Expr} (h : l.ownName?.isSome = true) : l.liveLeaves = [l] := by
  cases l with
  | const v => cases h
  | group b => cases h
  | product fs => cases h
  | sum ts => cases h
  | _ => rfl

theorem flatMap_liveLeaves_of_ownName {ls : List Expr} (h : ∀ l ∈ ls, l.ownName?.isSome = true) :
    ls.flatMap liveLeaves = ls := by
  rw [List.flatMap_congr fun l hl => liveLeaves_of_ownName (h l hl), List.flatMap_singleton']

mutual
/-- A live leaf is a part of the expression, and it has a name. -/
theorem mem_walk_of_mem_liveLeaves {e l : Expr} (h : l ∈ e.liveLeaves) :
    l ∈ e.walk ∧ l.ownName?.isSome = true := by
  cases e with
  | const v => exact absurd h List.not_mem_nil
  | group b =>
    obtain ⟨hmem, hname⟩ := mem_walk_of_mem_liveLeaves (e := b) h
    exact ⟨List.mem_cons_of_mem _ hmem, hname⟩
  | product fs =>
    rw [liveLeaves_product] at h
    split at h
    · exact absurd h List.not_mem_nil
    · obtain ⟨hmem, hname⟩ := mem_walkAll_of_mem_liveLeaves h
      exact ⟨List.mem_cons_of_mem _ hmem, hname⟩
  | sum ts =>
    rw [liveLeaves_sum] at h
    obtain ⟨hmem, hname⟩ := mem_walkAll_of_mem_liveLeaves h
    exact ⟨List.mem_cons_of_mem _ hmem, hname⟩
  | _ =>
    obtain rfl := List.mem_singleton.1 h
    exact ⟨List.mem_cons_self, rfl⟩

theorem mem_walkAll_of_mem_liveLeaves {es : List Expr} {l : Expr}
    (h : l ∈ es.flatMap liveLeaves) : l ∈ walkAll es ∧ l.ownName?.isSome = true := by
  cases es with
  | nil => exact absurd h List.not_mem_nil
  | cons e es =>
    rw [List.flatMap_cons, List.mem_append] at h
    rw [walkAll, List.mem_append]
    rcases h with h | h
    · obtain ⟨hmem, hname⟩ := mem_walk_of_mem_liveLeaves h
      exact ⟨.inl hmem, hname⟩
    · obtain ⟨hmem, hname⟩ := mem_walkAll_of_mem_liveLeaves h
      exact ⟨.inr hmem, hname⟩
end

theorem liveLeaves_eq_nil_of_isOne {e : Expr} (h : e.isOne = true) : e.liveLeaves = [] := by
  cases e with
  | const v => rfl
  | _ => cases h

theorem vanishes_of_mem {fs : List Expr} (h : (product fs).vanishes = false) :
    ∀ f ∈ fs, f.vanishes = false := by
  rw [vanishes_product, List.any_eq_false] at h
  exact fun f hf => Bool.eq_false_iff.2 (h f hf)

/-! ## Opened products and shortened sums -/

mutual
theorem flatMap_factors {e : Expr} (h : e.vanishes = false) :
    e.factors.flatMap liveLeaves = e.liveLeaves := by
  cases e with
  | product fs =>
    rw [liveLeaves_product, h]
    exact flatMap_factorsAll (vanishes_of_mem h)
  | _ => exact List.flatMap_singleton _ _

theorem flatMap_factorsAll {es : List Expr} (h : ∀ e ∈ es, e.vanishes = false) :
    (factorsAll es).flatMap liveLeaves = es.flatMap liveLeaves := by
  cases es with
  | nil => rfl
  | cons e es =>
    rw [List.forall_mem_cons] at h
    rw [factorsAll, List.flatMap_append, List.flatMap_cons, flatMap_factors h.1,
      flatMap_factorsAll h.2]
end

/-- Members without live leaves can go. -/
theorem flatMap_filter_eq {es : List Expr} {keep : Expr → Bool}
    (h : ∀ e, keep e = false → e.liveLeaves = []) :
    (es.filter keep).flatMap liveLeaves = es.flatMap liveLeaves := by
  induction es with
  | nil => rfl
  | cons e es ih =>
    by_cases hkeep : keep e = true
    · rw [List.filter_cons_of_pos hkeep, List.flatMap_cons, List.flatMap_cons, ih]
    · rw [List.filter_cons_of_neg hkeep, List.flatMap_cons, h e (Bool.eq_false_iff.2 hkeep),
        List.nil_append, ih]

theorem liveLeaves_ofFactors {es : List Expr} (h : es.any vanishes = false) :
    (ofFactors es).liveLeaves = es.flatMap liveLeaves := by
  unfold ofFactors
  split
  · next e => exact (List.flatMap_singleton _ _).symm
  · exact liveLeaves_product_of_forall fun f hf =>
      Bool.eq_false_iff.2 (List.any_eq_false.1 h f hf)

theorem liveLeaves_ofTerms (es : List Expr) :
    (ofTerms es).liveLeaves = es.flatMap liveLeaves := by
  unfold ofTerms
  split
  · next e => exact (List.flatMap_singleton _ _).symm
  · exact liveLeaves_sum es

end Expr

open Expr

/-! ## The rules -/

namespace Rule

/-- What the step puts in the place of a constant, a group, a product or a sum has its live
leaves. -/
def KeepsLive (r : Rule) : Prop :=
  ∀ e e', r.step? e = some e' → e.ownName? = none → e'.liveLeaves = e.liveLeaves

theorem keepsLive_zeroPower : zeroPower.KeepsLive := by
  intro e e' he hname
  cases e with
  | power b k => cases hname
  | _ => exact absurd he (by simp [zeroPower])

theorem keepsLive_unitPower : unitPower.KeepsLive := by
  intro e e' he hname
  cases e with
  | power b k => cases hname
  | _ => exact absurd he (by simp [unitPower])

theorem keepsLive_aliases (map : AliasMap) : (aliases map).KeepsLive := by
  intro e e' he hname
  cases e with
  | power b k => cases hname
  | symbol b => cases hname
  | _ => exact absurd he (by simp [aliases])

theorem keepsLive_unitFactors : unitFactors.KeepsLive := by
  intro e e' he _
  match e with
  | .product fs =>
    have hvanishes := keepsVanishing_unitFactors _ _ he
    by_cases hzero : (Expr.product fs).vanishes = true
    · rw [liveLeaves_eq_nil hzero, liveLeaves_eq_nil (hvanishes.trans hzero)]
    · rw [Bool.not_eq_true] at hzero
      have hfactors : ((factorsAll fs).filter (!·.isOne)).flatMap liveLeaves =
          (Expr.product fs).liveLeaves := by
        rw [flatMap_filter_eq fun f hf => liveLeaves_eq_nil_of_isOne (by simpa using hf),
          flatMap_factorsAll (vanishes_of_mem hzero), liveLeaves_product_of_forall
            (vanishes_of_mem hzero)]
      rw [unitFactors_product, Option.some.injEq] at he
      rw [← he, ← hfactors]
      split
      · next hnil => rw [hnil]; rfl
      · refine liveLeaves_ofFactors ?_
        rw [any_filter_eq fun f hf => vanishes_of_isOne (by simpa using hf), any_factorsAll,
          ← vanishes_product, hzero]
  | .sum [t] =>
    obtain rfl := Option.some.inj he
    rw [liveLeaves_sum, List.flatMap_singleton]
  | .sum [] | .sum (_ :: _ :: _) | .const _ | .symbol _ | .power _ _ | .alias _ _ | .group _ =>
    exact absurd he (by simp [unitFactors])

theorem keepsLive_zeroTerms : zeroTerms.KeepsLive := by
  intro e e' he _
  match e with
  | .product fs =>
    have hvanishes := keepsVanishing_zeroTerms _ _ he
    by_cases hzero : (Expr.product fs).vanishes = true
    · rw [liveLeaves_eq_nil hzero, liveLeaves_eq_nil (hvanishes.trans hzero)]
    · rw [Bool.not_eq_true] at hzero
      obtain rfl := Option.some.inj he
      split
      · next hany =>
        -- a factor 0 would make the product vanish
        rw [if_pos hany, hzero] at hvanishes
        cases hvanishes
      · rw [liveLeaves_ofFactors (by rw [any_factorsAll, ← vanishes_product, hzero]),
          flatMap_factorsAll (vanishes_of_mem hzero),
          liveLeaves_product_of_forall (vanishes_of_mem hzero)]
  | .group b =>
    simp only [zeroTerms, Option.ite_none_right_eq_some, Option.some.injEq] at he
    rw [← he.2]
    exact (liveLeaves_eq_nil (vanishes_of_isZero he.1)).symm
  | .sum [] =>
    obtain rfl := Option.some.inj he
    rfl
  | .sum (t :: ts) =>
    obtain rfl := Option.some.inj he
    rw [liveLeaves_ofTerms, liveLeaves_sum, List.flatMap_cons, List.flatMap_cons,
      flatMap_filter_eq fun u hu => liveLeaves_eq_nil (vanishes_of_isZero (by simpa using hu))]
  | .const _ | .symbol _ | .power _ _ | .alias _ _ => exact absurd he (by simp [zeroTerms])

theorem keepsLive_standard {map : AliasMap} {r : Rule} (hr : r ∈ standard map) : r.KeepsLive := by
  simp only [standard, List.mem_cons, List.not_mem_nil, or_false] at hr
  rcases hr with rfl | rfl | rfl | rfl | rfl
  · exact keepsLive_zeroPower
  · exact keepsLive_unitPower
  · exact keepsLive_unitFactors
  · exact keepsLive_zeroTerms
  · exact keepsLive_aliases map

theorem KeepsLive.getD {r : Rule} (h : r.KeepsLive) {e : Expr} (hname : e.ownName? = none) :
    ((r.step? e).getD e).liveLeaves = e.liveLeaves := by
  cases he : r.step? e with
  | none => rfl
  | some e' => exact h e e' he hname

variable {r : Rule}

mutual
/-- A rule acts on each live leaf by itself. -/
theorem KeepsLive.apply (hlive : r.KeepsLive) (hzero : r.KeepsVanishing) (e : Expr) :
    (r.apply e).liveLeaves = e.liveLeaves.flatMap fun l => (r.apply l).liveLeaves := by
  cases e with
  | const v => exact hlive.getD (e := .const v) rfl
  | group b => exact (hlive.getD (e := .group (r.apply b)) rfl).trans (hlive.apply hzero b)
  | product fs =>
    have hfs := hlive.applyAll hzero fs
    have hvanishes : (Expr.product (fs.map r.apply)).vanishes = (Expr.product fs).vanishes := by
      rw [vanishes_product, vanishes_product, List.any_map, Function.comp_def, funext hzero.apply]
    rw [Rule.apply, replace, replaceAll_eq_map]
    refine (hlive.getD (e := .product (fs.map r.apply)) rfl).trans ?_
    rw [liveLeaves_product, liveLeaves_product, hvanishes]
    split
    · rfl
    · exact hfs
  | sum ts =>
    rw [Rule.apply, replace, replaceAll_eq_map]
    refine (hlive.getD (e := .sum (ts.map r.apply)) rfl).trans ?_
    rw [liveLeaves_sum, liveLeaves_sum]
    exact hlive.applyAll hzero ts
  | _ => exact (List.flatMap_singleton _ _).symm

theorem KeepsLive.applyAll (hlive : r.KeepsLive) (hzero : r.KeepsVanishing) (es : List Expr) :
    (es.map r.apply).flatMap liveLeaves =
      (es.flatMap liveLeaves).flatMap fun l => (r.apply l).liveLeaves := by
  cases es with
  | nil => rfl
  | cons e es =>
    rw [List.map_cons, List.flatMap_cons, List.flatMap_cons, List.flatMap_append,
      hlive.apply hzero e, hlive.applyAll hzero es]
end

end Rule

/-- Rules act on each live leaf by itself, however many and in whatever order. -/
theorem liveLeaves_simplifyWith {rules : List Rule}
    (hrules : ∀ r ∈ rules, ∃ map, r ∈ Rule.standard map) (e : Expr) :
    (simplifyWith rules e).liveLeaves =
      e.liveLeaves.flatMap fun l => (simplifyWith rules l).liveLeaves := by
  induction rules generalizing e with
  | nil =>
    simp only [simplifyWith_nil]
    exact (flatMap_liveLeaves_of_ownName fun l hl => (mem_walk_of_mem_liveLeaves hl).2).symm
  | cons r rs ih =>
    rw [List.forall_mem_cons] at hrules
    obtain ⟨map, hr⟩ := hrules.1
    simp only [simplifyWith_cons]
    rw [ih hrules.2, (Rule.keepsLive_standard hr).apply (Rule.keepsVanishing_standard hr),
      List.flatMap_assoc]
    exact congrArg (List.flatMap · _) (funext fun l => (ih hrules.2 _).symm)

/-! ## Simplified expressions -/

mutual
/-- Where the rule for zero terms has nothing left to do, all leaves are live. -/
theorem mem_liveLeaves_of_leaves {e l : Expr} (h : EveryPart Rule.zeroTerms.Leaves e)
    (hl : l ∈ e.walk) (hname : l.ownName?.isSome = true) : l ∈ e.liveLeaves := by
  cases e with
  | const v =>
    rw [List.mem_singleton.1 hl] at hname
    cases hname
  | group b =>
    rcases List.mem_cons.1 hl with rfl | hl
    · cases hname
    · exact mem_liveLeaves_of_leaves (e := b) (everyPart_group.1 h).2 hl hname
  | product fs =>
    obtain ⟨hself, hparts⟩ := everyPart_product.1 h
    rcases List.mem_cons.1 hl with rfl | hl
    · cases hname
    · have hlasting : ∀ f ∈ fs, f.vanishes = false := fun f hf =>
        (vanishes_eq_isZero (hparts f hf)).trans ((Rule.leaves_zeroTerms_product.1 hself).2 f hf).2
      rw [liveLeaves_product_of_forall hlasting]
      exact mem_flatMap_liveLeaves_of_leaves hparts hl hname
  | sum ts =>
    rcases List.mem_cons.1 hl with rfl | hl
    · cases hname
    · rw [liveLeaves_sum]
      exact mem_flatMap_liveLeaves_of_leaves (everyPart_sum.1 h).2 hl hname
  | _ => exact hl

theorem mem_flatMap_liveLeaves_of_leaves {es : List Expr} {l : Expr}
    (h : ∀ e ∈ es, EveryPart Rule.zeroTerms.Leaves e) (hl : l ∈ walkAll es)
    (hname : l.ownName?.isSome = true) : l ∈ es.flatMap liveLeaves := by
  cases es with
  | nil => exact absurd hl List.not_mem_nil
  | cons e es =>
    rw [List.forall_mem_cons] at h
    rw [walkAll, List.mem_append] at hl
    rw [List.flatMap_cons, List.mem_append]
    exact hl.imp (fun hl => mem_liveLeaves_of_leaves h.1 hl hname) fun hl =>
      mem_flatMap_liveLeaves_of_leaves h.2 hl hname
end

/-- The leaves of a simplified expression are those that the live leaves come to. -/
theorem mem_walk_simplify_iff {map : AliasMap} {e l : Expr} (hname : l.ownName?.isSome = true) :
    l ∈ (simplify map e).walk ↔ ∃ k ∈ e.liveLeaves, l ∈ (simplify map k).liveLeaves := by
  have hlive : (simplify map e).liveLeaves =
      e.liveLeaves.flatMap fun k => (simplify map k).liveLeaves :=
    liveLeaves_simplifyWith (fun _ hr => ⟨map, hr⟩) e
  rw [← List.mem_flatMap, ← hlive]
  exact ⟨fun h => mem_liveLeaves_of_leaves (tidy_simplify map e).zeroTerms h hname,
    fun h => (mem_walk_of_mem_liveLeaves h).1⟩

end GaussianIntegrals
