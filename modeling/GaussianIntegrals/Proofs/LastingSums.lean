/-
  Expressions for which one run of the simplification is enough. The rule for zero terms comes
  after the one for unit factors and can leave it new work only where a sum of several terms comes
  down to its first, as `1 + 0` does. Where every sum of several terms has another term than the
  first that does not vanish (`Lasting`), no factor 1 is left and a second run changes nothing
  (`simplify_simplify_of_lasting`).

  That no term vanishes is not needed, and would not do: the formulas have vanishing terms on
  purpose.
-/
import GaussianIntegrals.Proofs.KeptTerms

namespace GaussianIntegrals

open Expr

/-! ## Sums that last -/

/-- A sum of several terms has another one than the first that does not vanish. -/
def Lasting : Expr → Prop
  | .sum ts => 2 ≤ ts.length → ts.tail.all vanishes = false
  | _ => True

theorem lasting_of_leaf {e : Expr} (h : e.parts = []) : EveryPart Lasting e := by
  refine everyPart_iff.2 ⟨?_, h ▸ List.forall_mem_nil _⟩
  cases e with
  | sum ts =>
    have hts : ts = [] := h
    exact fun hlength => absurd hlength (by rw [hts]; decide)
  | _ => trivial

theorem lasting_product {fs : List Expr} (h : ∀ f ∈ fs, EveryPart Lasting f) :
    EveryPart Lasting (.product fs) :=
  everyPart_product.2 ⟨trivial, h⟩

theorem lasting_sum {t : Expr} {ts : List Expr} (h : ts.all vanishes = false)
    (hts : ∀ u ∈ t :: ts, EveryPart Lasting u) : EveryPart Lasting (.sum (t :: ts)) :=
  everyPart_sum.2 ⟨fun _ => h, hts⟩

theorem compositional_lasting :
    Compositional Lasting fun e e' => EveryPart Lasting e' ∧ e'.vanishes = e.vanishes where
  keeps h := h.1
  trans h h' := ⟨h'.1, h'.2.trans h.2⟩
  group _ h := ⟨everyPart_group.2 ⟨trivial, h.1⟩, h.2⟩
  product _ h :=
    ⟨lasting_product (forall_right_of_forall₂ h fun _ _ h => h.1),
      compositional_vanishes.product (everyPart_true _) (h.imp fun _ _ h => h.2)⟩
  sum hsum h := by
    have hvanishes := h.imp fun _ _ h => h.2
    refine ⟨everyPart_sum.2 ⟨fun hlength => ?_, forall_right_of_forall₂ h fun _ _ h => h.1⟩,
      compositional_vanishes.sum (everyPart_true _) hvanishes⟩
    rw [← h.length_eq] at hlength
    rw [all_vanishes_eq_of_forall₂ (forall₂_tail hvanishes)]
    exact (everyPart_sum.1 hsum).1 hlength

namespace Rule

theorem KeepsVanishing.lasting_apply {r : Rule} (hr : r.KeepsVanishing)
    (hstep : KeepsParts Lasting r.step?) {e : Expr} (h : EveryPart Lasting e) :
    EveryPart Lasting (r.apply e) :=
  (compositional_lasting.replace (fun e he => ⟨hstep.getD he, hr.getD e⟩) h).1

theorem OnLeaves.lasting_apply {r : Rule} (hr : r.OnLeaves) {e : Expr} (h : EveryPart Lasting e) :
    EveryPart Lasting (r.apply e) :=
  hr.keepsVanishing.lasting_apply (fun e e' he _ => lasting_of_leaf (hr e e' he).2.2) h

theorem keepsParts_lasting_unitFactors : KeepsParts Lasting unitFactors.step? := by
  intro e e' he h
  match e with
  | .product fs =>
    rw [unitFactors_product, Option.some.injEq] at he
    rw [← he]
    split
    · exact everyPart_const.2 trivial
    · exact everyPart_ofFactors (fun _ => trivial) fun f hf =>
        everyPart_factorsAll (everyPart_product.1 h).2 f (List.mem_of_mem_filter hf)
  | .sum [t] =>
    obtain rfl := Option.some.inj he
    exact (everyPart_sum.1 h).2 t List.mem_cons_self
  | .sum [] | .sum (_ :: _ :: _) | .const _ | .symbol _ | .power _ _ | .alias _ _ | .group _ =>
    exact absurd he (by simp [unitFactors])

end Rule

theorem lasting_withoutUnits {e : Expr} (h : EveryPart Lasting e) :
    EveryPart Lasting (withoutUnits e) :=
  Rule.keepsVanishing_unitFactors.lasting_apply Rule.keepsParts_lasting_unitFactors
    (Rule.onLeaves_unitPower.lasting_apply (Rule.onLeaves_zeroPower.lasting_apply h))

/-! ## Unit factors -/

/-- The rule for unit factors has nothing to do, and a sum will not lose all terms but one. -/
def Sturdy (e : Expr) : Prop := Rule.unitFactors.Leaves e ∧ Lasting e

/-- `e'` can stand where `e` stood without making a product or a sum around it the concern of the
rule for unit factors. -/
structure Upholds (e e' : Expr) : Prop where
  sturdy : EveryPart Sturdy e'
  vanishes : e'.vanishes = e.vanishes
  isProduct : e.isProduct = false → e'.isProduct = false
  isOne : e.isOne = false → e'.isOne = false

theorem Upholds.refl {e : Expr} (h : EveryPart Sturdy e) : Upholds e e := ⟨h, rfl, id, id⟩

theorem upholds_product {fs fs' : List Expr} (h : EveryPart Sturdy (.product fs))
    (hfs : List.Forall₂ Upholds fs fs') : Upholds (.product fs) (.product fs') := by
  obtain ⟨hlength, hfactors⟩ := Rule.leaves_unitFactors_product.1 (everyPart_product.1 h).1.1
  refine ⟨everyPart_product.2 ⟨⟨Rule.leaves_unitFactors_product.2 ⟨?_, ?_⟩, trivial⟩, ?_⟩, ?_, id,
    id⟩
  · rwa [← hfs.length_eq]
  · exact forall_of_forall₂ hfs (fun f f' hf h => ⟨hf.isProduct h.1, hf.isOne h.2⟩) hfactors
  · exact forall_right_of_forall₂ hfs fun f f' hf => hf.sturdy
  · exact compositional_vanishes.product (everyPart_true _) (hfs.imp fun _ _ hf => hf.vanishes)

theorem upholds_sum {ts ts' : List Expr} (h : EveryPart Sturdy (.sum ts))
    (hts : List.Forall₂ Upholds ts ts') : Upholds (.sum ts) (.sum ts') := by
  have hself := (everyPart_sum.1 h).1
  have hvanishes := hts.imp fun _ _ ht => ht.vanishes
  refine ⟨everyPart_sum.2 ⟨⟨Rule.leaves_unitFactors_sum.2 ?_, fun hlength => ?_⟩, ?_⟩, ?_, id, id⟩
  · rw [← hts.length_eq]
    exact Rule.leaves_unitFactors_sum.1 hself.1
  · rw [← hts.length_eq] at hlength
    rw [all_vanishes_eq_of_forall₂ (forall₂_tail hvanishes)]
    exact hself.2 hlength
  · exact forall_right_of_forall₂ hts fun t t' ht => ht.sturdy
  · exact compositional_vanishes.sum (everyPart_true _) hvanishes

theorem compositional_upholds : Compositional Sturdy Upholds where
  keeps h := h.sturdy
  trans h h' := ⟨h'.sturdy, h'.vanishes.trans h.vanishes, fun he => h'.isProduct (h.isProduct he),
    fun he => h'.isOne (h.isOne he)⟩
  group _ h := ⟨everyPart_group.2 ⟨⟨rfl, trivial⟩, h.sturdy⟩, h.vanishes, id, id⟩
  product := upholds_product
  sum := upholds_sum

theorem upholds_zero {e : Expr} (h : e.vanishes = true) : Upholds e .zero :=
  ⟨everyPart_const.2 ⟨rfl, trivial⟩, h.symm, fun _ => rfl, fun _ => rfl⟩

/-- A sum that lasts keeps another term than the first. -/
theorem upholds_zeroTerms_sum {t : Expr} {ts : List Expr} (h : EveryPart Sturdy (.sum (t :: ts))) :
    Upholds (.sum (t :: ts)) (ofTerms (t :: ts.filter (!·.isZero))) := by
  obtain ⟨⟨hleaves, hlasting⟩, hparts⟩ := everyPart_sum.1 h
  have hne := Rule.leaves_unitFactors_sum.1 hleaves
  have hkept : (ts.filter (!·.isZero)).all Expr.vanishes = ts.all Expr.vanishes :=
    all_filter_eq fun u hu => vanishes_of_isZero (by simpa using hu)
  have htail : ts.all Expr.vanishes = false := hlasting (by rw [List.length_cons] at hne ⊢; omega)
  have hlength : (t :: ts.filter (!·.isZero)).length ≠ 1 := by
    intro hone
    rw [List.length_cons, Nat.succ_inj, List.length_eq_zero_iff] at hone
    rw [hone, htail] at hkept
    cases hkept
  rw [ofTerms_of_length hlength]
  rw [List.forall_mem_cons] at hparts
  refine ⟨everyPart_sum.2 ⟨⟨Rule.leaves_unitFactors_sum.2 hlength, fun _ => ?_⟩, ?_⟩, ?_, id, id⟩
  · rw [List.tail_cons, hkept, htail]
  · rw [List.forall_mem_cons]
    exact ⟨hparts.1, fun u hu => hparts.2 u (List.mem_of_mem_filter hu)⟩
  · rw [vanishes_sum, vanishes_sum, List.all_cons, List.all_cons, hkept]

theorem upholds_zeroTerms {e : Expr} (h : EveryPart Sturdy e) :
    Upholds e ((Rule.zeroTerms.step? e).getD e) := by
  match e with
  | .product fs =>
    obtain ⟨hlength, hfactors⟩ := Rule.leaves_unitFactors_product.1 (everyPart_product.1 h).1.1
    simp only [Rule.zeroTerms, Option.getD_some]
    -- there are no products among the factors that could be opened
    rw [factorsAll_eq_self fun f hf => (hfactors f hf).1]
    split
    · next hzero =>
      obtain ⟨f, hf, hfzero⟩ := List.any_eq_true.1 hzero
      refine upholds_zero ?_
      rw [vanishes_product]
      exact List.any_eq_true.2 ⟨f, hf, vanishes_of_isZero hfzero⟩
    · rw [ofFactors_of_length (by omega)]
      exact .refl h
  | .group b =>
    simp only [Rule.zeroTerms]
    split
    · next hb => exact upholds_zero (vanishes_of_isZero hb)
    · exact .refl h
  | .sum [] => exact upholds_zero rfl
  | .sum (t :: ts) => exact upholds_zeroTerms_sum h
  | .const _ | .symbol _ | .power _ _ | .alias _ _ => exact .refl h

theorem upholds_aliases (map : AliasMap) {e : Expr} (h : EveryPart Sturdy e) :
    Upholds e (((Rule.aliases map).step? e).getD e) := by
  cases he : (Rule.aliases map).step? e with
  | none => exact .refl h
  | some e' =>
    have hvanishes := (Rule.onLeaves_aliases map).keepsVanishing e e' he
    cases e with
    | power b k =>
      obtain ⟨n, -, rfl⟩ := Option.map_eq_some_iff.1 he
      exact ⟨everyPart_alias.2 ⟨rfl, trivial⟩, hvanishes, fun _ => rfl, fun _ => rfl⟩
    | symbol b =>
      obtain ⟨n, -, rfl⟩ := Option.map_eq_some_iff.1 he
      exact ⟨everyPart_alias.2 ⟨rfl, trivial⟩, hvanishes, fun _ => rfl, fun _ => rfl⟩
    | _ => exact absurd he (by simp [Rule.aliases])

/-- Where all sums last, one run takes all unit factors away. -/
theorem leaves_unitFactors_simplify (map : AliasMap) {e : Expr} (h : EveryPart Lasting e) :
    EveryPart Rule.unitFactors.Leaves (simplify map e) := by
  have hsturdy : EveryPart Sturdy (withoutUnits e) := fun p hp =>
    ⟨Rule.settles_unitFactors _ p hp, lasting_withoutUnits h p hp⟩
  have hzeros := compositional_upholds.replace (fun _ => upholds_zeroTerms) hsturdy
  have haliases := compositional_upholds.replace (fun _ => upholds_aliases map) hzeros.sturdy
  exact fun p hp => (haliases.sturdy p hp).1

theorem simplify_simplify_of_lasting (map : AliasMap) {e : Expr} (h : EveryPart Lasting e) :
    simplify map (simplify map e) = simplify map e := by
  rw [(tidy_simplify map e).simplify_eq, Rule.apply_eq_self (leaves_unitFactors_simplify map h)]

end GaussianIntegrals
