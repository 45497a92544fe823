/-
  Simplification comes to rest. Each rule alone does nothing when it is applied again. The
  five in a row may have to be applied twice: the rule for zero terms comes after the one
  for unit factors and can make a sum of 1 and zeros a factor 1, as in `a * (1 + 0)`. A
  second run takes these factors away, and a third finds nothing to do.

  A rule rests on an expression when it leaves every part of it as it is
  (`Rule.apply_eq_self`); what an applied rule returns is of this kind (`Rule.Settles`, one
  lemma for each rule). The rules for powers and short names look at leaves, and the rules
  after them bring no new ones. Whether the rule for zero terms rests depends on the
  neighbours of a part; `Rule.Succeeds` says what a replacement has to keep for them.

  A simplified expression is `Tidy`: all rules but the one for unit factors rest on it, and
  they still do when that rule has been applied (`Tidy.unitFactors`). So all that a further
  run does is what the rule for unit factors does (`Tidy.simplify_eq`), which settles.
-/
import GaussianIntegrals.Proofs.Parts

namespace GaussianIntegrals

namespace Expr

/-- A product, of whatever factors. -/
def isProduct : Expr → Bool
  | .product _ => true
  | _ => false

/-! ## Opened products -/

mutual
theorem isProduct_of_mem_factors {e f : Expr} (hf : f ∈ e.factors) : f.isProduct = false := by
  cases e with
  | product fs => exact isProduct_of_mem_factorsAll hf
  | _ =>
    rw [List.mem_singleton.1 hf]
    rfl

theorem isProduct_of_mem_factorsAll {es : List Expr} {f : Expr} (hf : f ∈ factorsAll es) :
    f.isProduct = false := by
  cases es with
  | nil => exact absurd hf List.not_mem_nil
  | cons e es =>
    rcases List.mem_append.1 hf with hf | hf
    · exact isProduct_of_mem_factors hf
    · exact isProduct_of_mem_factorsAll hf
end

theorem factors_eq_singleton {e : Expr} (he : e.isProduct = false) : e.factors = [e] := by
  cases e with
  | product fs => exact absurd he (by simp [isProduct])
  | _ => rfl

/-- Where no factor is a product there is nothing to open. -/
theorem factorsAll_eq_self {es : List Expr} (hes : ∀ e ∈ es, e.isProduct = false) :
    factorsAll es = es := by
  induction es with
  | nil => rfl
  | cons e es ih =>
    rw [List.forall_mem_cons] at hes
    rw [factorsAll, factors_eq_singleton hes.1, ih hes.2]
    rfl

theorem ofFactors_eq_product_iff {es fs : List Expr} (hes : ∀ e ∈ es, e.isProduct = false) :
    ofFactors es = .product fs ↔ es = fs ∧ fs.length ≠ 1 := by
  unfold ofFactors
  split
  · next e =>
    constructor
    · intro he
      have hproduct : e.isProduct = false := hes e List.mem_cons_self
      rw [he] at hproduct
      exact absurd hproduct (by simp [isProduct])
    · rintro ⟨rfl, hlength⟩
      exact absurd rfl hlength
  · next hne =>
    rw [product.injEq]
    refine (and_iff_left_of_imp ?_).symm
    rintro rfl hone
    obtain ⟨e, he⟩ := List.length_eq_one_iff.1 hone
    exact hne e he

theorem ofFactors_of_length {es : List Expr} (h : es.length ≠ 1) : ofFactors es = .product es := by
  unfold ofFactors
  split
  · exact absurd rfl h
  · rfl

theorem ofTerms_of_length {es : List Expr} (h : es.length ≠ 1) : ofTerms es = .sum es := by
  unfold ofTerms
  split
  · exact absurd rfl h
  · rfl

theorem ne_sum_cons (t : Expr) (ts : List Expr) : t ≠ .sum (t :: ts) := by
  intro h
  have hsize := congrArg sizeOf h
  simp only [sum.sizeOf_spec, List.cons.sizeOf_spec] at hsize
  omega

/-- A sum that keeps its first term and some others is the same sum if it keeps all, and if the
first is not the only one. -/
theorem ofTerms_cons_eq_sum_iff {t : Expr} {us ts : List Expr} :
    ofTerms (t :: us) = .sum (t :: ts) ↔ us = ts ∧ ts ≠ [] := by
  cases us with
  | nil =>
    constructor
    · intro h
      exact absurd h (ne_sum_cons t ts)
    · rintro ⟨rfl, h⟩
      exact absurd rfl h
  | cons u us =>
    rw [ofTerms_of_length (by simp), sum.injEq, List.cons.injEq]
    constructor
    · rintro ⟨-, rfl⟩
      exact ⟨rfl, List.cons_ne_nil u us⟩
    · rintro ⟨rfl, -⟩
      exact ⟨rfl, rfl⟩

end Expr

open Expr

/-! ## Rules at rest -/

namespace Rule

/-- What the rule puts in the place of the expression is the expression itself. -/
def Leaves (r : Rule) (e : Expr) : Prop := (r.step? e).getD e = e

/-- Where the rule has been applied there is nothing left for it to do. -/
def Settles (r : Rule) : Prop := ∀ e, EveryPart r.Leaves (r.apply e)

variable {r : Rule}

theorem leaves_of_step?_eq_none {e : Expr} (h : r.step? e = none) : r.Leaves e := by
  unfold Leaves
  rw [h]
  rfl

mutual
/-- A rule that leaves all parts as they are does nothing. -/
theorem apply_eq_self {e : Expr} (h : EveryPart r.Leaves e) : r.apply e = e := by
  unfold apply
  obtain ⟨hself, hparts⟩ := everyPart_iff.1 h
  cases e with
  | group b =>
    have hbody : b.replace r.step? = b := apply_eq_self (hparts b List.mem_cons_self)
    rw [replace, hbody]
    exact hself
  | product fs =>
    have hlist : replaceAll r.step? fs = fs := replaceAll_eq_self hparts
    rw [replace, hlist]
    exact hself
  | sum ts =>
    have hlist : replaceAll r.step? ts = ts := replaceAll_eq_self hparts
    rw [replace, hlist]
    exact hself
  | _ => exact hself

theorem replaceAll_eq_self {es : List Expr} (h : ∀ e ∈ es, EveryPart r.Leaves e) :
    replaceAll r.step? es = es := by
  cases es with
  | nil => rfl
  | cons e es =>
    rw [List.forall_mem_cons] at h
    have hhead : e.replace r.step? = e := apply_eq_self h.1
    rw [replaceAll, hhead, replaceAll_eq_self h.2]
end

theorem Settles.apply_apply (hr : r.Settles) (e : Expr) : r.apply (r.apply e) = r.apply e :=
  apply_eq_self (hr e)

theorem Settles.apply_eq_self_iff (hr : r.Settles) {e : Expr} :
    r.apply e = e ↔ EveryPart r.Leaves e := by
  constructor
  · intro h
    rw [← h]
    exact hr e
  · exact apply_eq_self

/-- A rule settles whose replacements are without parts and not replaced again. -/
theorem settles_of_leaf (h : ∀ e e', r.step? e = some e' → e'.parts = [] ∧ r.step? e' = none) :
    r.Settles := by
  refine replace_induction fun e hparts => everyPart_iff.2 ?_
  cases he : r.step? e with
  | none => exact ⟨leaves_of_step?_eq_none he, hparts⟩
  | some e' =>
    obtain ⟨hleaf, hnone⟩ := h e e' he
    rw [Option.getD_some, hleaf]
    exact ⟨leaves_of_step?_eq_none hnone, List.forall_mem_nil _⟩

theorem settles_zeroPower : zeroPower.Settles := by
  refine settles_of_leaf fun e e' he => ?_
  cases e with
  | power b k =>
    simp only [zeroPower, Option.ite_none_right_eq_some, Option.some.injEq] at he
    rw [← he.2]
    exact ⟨rfl, rfl⟩
  | _ => exact absurd he (by simp [zeroPower])

theorem settles_unitPower : unitPower.Settles := by
  refine settles_of_leaf fun e e' he => ?_
  cases e with
  | power b k =>
    simp only [unitPower, Option.ite_none_right_eq_some, Option.some.injEq] at he
    rw [← he.2]
    exact ⟨rfl, rfl⟩
  | _ => exact absurd he (by simp [unitPower])

theorem settles_aliases (map : AliasMap) : (aliases map).Settles := by
  refine settles_of_leaf fun e e' he => ?_
  cases e with
  | power b k =>
    obtain ⟨n, -, rfl⟩ := Option.map_eq_some_iff.1 he
    exact ⟨rfl, rfl⟩
  | symbol b =>
    obtain ⟨n, -, rfl⟩ := Option.map_eq_some_iff.1 he
    exact ⟨rfl, rfl⟩
  | _ => exact absurd he (by simp [aliases])

/-! ### Unit factors -/

theorem unitFactors_product (fs : List Expr) :
    unitFactors.step? (.product fs) =
      some (if (factorsAll fs).filter (!·.isOne) = [] then .one
        else ofFactors ((factorsAll fs).filter (!·.isOne))) := by
  simp only [unitFactors]
  split
  · next h => rw [h, if_pos rfl]
  · next h => rw [if_neg h]

theorem leaves_unitFactors_product {fs : List Expr} :
    unitFactors.Leaves (.product fs) ↔
      2 ≤ fs.length ∧ ∀ f ∈ fs, f.isProduct = false ∧ f.isOne = false := by
  unfold Leaves
  rw [unitFactors_product, Option.getD_some]
  constructor
  · intro h
    split at h
    · cases h
    · next hne =>
      have hproduct : ∀ f ∈ (factorsAll fs).filter (!·.isOne), f.isProduct = false :=
        fun f hf => isProduct_of_mem_factorsAll (List.mem_of_mem_filter hf)
      obtain ⟨hfs, hlength⟩ := (ofFactors_eq_product_iff hproduct).1 h
      rw [hfs] at hne hproduct
      have hpos := List.length_pos_iff.2 hne
      refine ⟨by omega, fun f hf => ⟨hproduct f hf, ?_⟩⟩
      rw [← hfs] at hf
      simpa using List.of_mem_filter hf
  · rintro ⟨hlength, hfs⟩
    have hfilter : fs.filter (!·.isOne) = fs :=
      List.filter_eq_self.2 fun f hf => by simp [(hfs f hf).2]
    have hne : fs ≠ [] := List.length_pos_iff.1 (by omega)
    rw [factorsAll_eq_self fun f hf => (hfs f hf).1, hfilter, if_neg hne,
      ofFactors_of_length (by omega)]

theorem leaves_unitFactors_sum {ts : List Expr} :
    unitFactors.Leaves (.sum ts) ↔ ts.length ≠ 1 := by
  unfold Leaves
  match ts with
  | [t] => simpa [unitFactors] using ne_sum_cons t []
  | [] | _ :: _ :: _ => simp [unitFactors]

theorem settles_unitFactors : unitFactors.Settles := by
  refine replace_induction fun e hparts => ?_
  cases e with
  | product fs =>
    rw [unitFactors_product, Option.getD_some]
    split
    · exact everyPart_const.2 rfl
    · next hne =>
      refine everyPart_ofFactors (fun hlength => leaves_unitFactors_product.2 ⟨?_, ?_⟩) ?_
      · have hpos := List.length_pos_iff.2 hne
        omega
      · intro f hf
        exact ⟨isProduct_of_mem_factorsAll (List.mem_of_mem_filter hf),
          by simpa using List.of_mem_filter hf⟩
      · exact fun f hf => everyPart_factorsAll hparts f (List.mem_of_mem_filter hf)
  | sum ts =>
    match ts with
    | [t] => exact hparts t List.mem_cons_self
    | [] | _ :: _ :: _ => exact everyPart_sum.2 ⟨rfl, hparts⟩
  | group b => exact everyPart_iff.2 ⟨rfl, hparts⟩
  | _ => exact everyPart_iff.2 ⟨rfl, hparts⟩

/-! ### Zero terms -/

theorem leaves_zeroTerms_group {b : Expr} : zeroTerms.Leaves (.group b) ↔ b.isZero = false := by
  cases hb : b.isZero <;> simp [Leaves, zeroTerms, hb, zero]

theorem isZero_of_not_any {fs : List Expr} (h : ¬ fs.any (·.isZero) = true) {f : Expr}
    (hf : f ∈ fs) : f.isZero = false := by
  rw [List.any_eq_true] at h
  exact Bool.eq_false_iff.2 fun hzero => h ⟨f, hf, hzero⟩

theorem leaves_zeroTerms_product {fs : List Expr} :
    zeroTerms.Leaves (.product fs) ↔
      fs.length ≠ 1 ∧ ∀ f ∈ fs, f.isProduct = false ∧ f.isZero = false := by
  unfold Leaves
  simp only [zeroTerms, Option.getD_some]
  constructor
  · intro h
    split at h
    · cases h
    · next hzero =>
      obtain ⟨hfs, hlength⟩ :=
        (ofFactors_eq_product_iff fun f => isProduct_of_mem_factorsAll).1 h
      refine ⟨hlength, fun f hf => ?_⟩
      rw [← hfs] at hf
      exact ⟨isProduct_of_mem_factorsAll hf, isZero_of_not_any hzero hf⟩
  · rintro ⟨hlength, hfs⟩
    have hzero : ¬ fs.any (·.isZero) = true := by
      rw [List.any_eq_true]
      rintro ⟨f, hf, h⟩
      rw [(hfs f hf).2] at h
      cases h
    rw [factorsAll_eq_self fun f hf => (hfs f hf).1, if_neg hzero, ofFactors_of_length hlength]

theorem leaves_zeroTerms_sum {ts : List Expr} :
    zeroTerms.Leaves (.sum ts) ↔ 2 ≤ ts.length ∧ ∀ t ∈ ts.tail, t.isZero = false := by
  unfold Leaves
  cases ts with
  | nil => simp [zeroTerms, zero]
  | cons t ts =>
    simp only [zeroTerms, Option.getD_some, ofTerms_cons_eq_sum_iff, List.filter_eq_self,
      Bool.not_eq_true', List.tail_cons, List.length_cons]
    rw [and_comm, ← List.length_pos_iff]
    refine and_congr_left fun _ => ?_
    omega

theorem settles_zeroTerms : zeroTerms.Settles := by
  refine replace_induction fun e hparts => ?_
  cases e with
  | product fs =>
    simp only [zeroTerms, Option.getD_some]
    split
    · exact everyPart_const.2 rfl
    · next hzero =>
      refine everyPart_ofFactors (fun hlength => leaves_zeroTerms_product.2 ⟨hlength, ?_⟩)
        (everyPart_factorsAll hparts)
      intro f hf
      exact ⟨isProduct_of_mem_factorsAll hf, isZero_of_not_any hzero hf⟩
  | group b =>
    simp only [zeroTerms]
    split
    · exact everyPart_const.2 rfl
    · next hb =>
      exact everyPart_iff.2 ⟨leaves_zeroTerms_group.2 (by simpa using hb), hparts⟩
  | sum ts =>
    cases ts with
    | nil => exact everyPart_const.2 rfl
    | cons t ts =>
      rw [parts, List.forall_mem_cons] at hparts
      simp only [zeroTerms, Option.getD_some]
      refine everyPart_ofTerms (fun hlength => leaves_zeroTerms_sum.2 ⟨?_, ?_⟩) ?_
      · rw [List.length_cons] at hlength ⊢
        omega
      · intro u hu
        simpa using List.of_mem_filter hu
      · rw [List.forall_mem_cons]
        exact ⟨hparts.1, fun u hu => hparts.2 u (List.mem_of_mem_filter hu)⟩
  | _ => exact everyPart_iff.2 ⟨rfl, hparts⟩

theorem settles_standard {map : AliasMap} {r : Rule} (hr : r ∈ standard map) : r.Settles := by
  simp only [standard, List.mem_cons, List.not_mem_nil, or_false] at hr
  rcases hr with rfl | rfl | rfl | rfl | rfl
  · exact settles_zeroPower
  · exact settles_unitPower
  · exact settles_unitFactors
  · exact settles_zeroTerms
  · exact settles_aliases map

/-! ### What other rules leave of a rule's work -/

/-- A rule that replaces nothing but powers rests on all that other rules bring in. -/
theorem inherited_leaves_of_power (hr : ∀ e, (∀ b k, e ≠ .power b k) → r.step? e = none)
    (map : AliasMap) : Inherited map r.Leaves := by
  have hleaves : ∀ e, (∀ b k, e ≠ .power b k) → r.Leaves e :=
    fun e he => leaves_of_step?_eq_none (hr e he)
  exact {
    group := fun _ => hleaves _ (by simp)
    product := fun _ => hleaves _ (by simp)
    sum := fun _ => hleaves _ (by simp)
    zero := hleaves _ (by simp [zero])
    one := hleaves _ (by simp [one])
    symbol := fun _ _ => hleaves _ (by simp)
    powerAlias := fun _ _ _ _ _ => hleaves _ (by simp)
    symbolAlias := fun _ _ _ _ => hleaves _ (by simp) }

theorem inherited_leaves_zeroPower : ∀ map, Inherited map zeroPower.Leaves :=
  inherited_leaves_of_power fun e he => by
    cases e with
    | power b k => exact absurd rfl (he b k)
    | _ => rfl

theorem inherited_leaves_unitPower : ∀ map, Inherited map unitPower.Leaves :=
  inherited_leaves_of_power fun e he => by
    cases e with
    | power b k => exact absurd rfl (he b k)
    | _ => rfl

theorem inherited_leaves_aliases (map : AliasMap) : Inherited map (aliases map).Leaves where
  group _ := rfl
  product _ := rfl
  sum _ := rfl
  zero := rfl
  one := rfl
  symbol b h := by
    cases hb : map.lookup (b, 1) with
    | none => exact leaves_of_step?_eq_none (by simp [aliases, hb])
    | some n =>
      simp only [Leaves, aliases, hb, Option.map_some, Option.getD_some, reduceCtorEq] at h
  powerAlias _ _ _ _ _ := rfl
  symbolAlias _ _ _ _ := rfl

/-- The rule for zero terms rests on `e'`, which stands where `e` stood, and so it does on
what is around them: `e'` is no product and not zero unless `e` is. -/
structure Succeeds (e e' : Expr) : Prop where
  leaves : EveryPart zeroTerms.Leaves e'
  isProduct : e.isProduct = false → e'.isProduct = false
  isZero : e.isZero = false → e'.isZero = false

theorem Succeeds.refl {e : Expr} (h : EveryPart zeroTerms.Leaves e) : Succeeds e e :=
  ⟨h, id, id⟩

theorem Succeeds.trans {e e' e'' : Expr} (h : Succeeds e e') (h' : Succeeds e' e'') :
    Succeeds e e'' :=
  ⟨h'.leaves, fun he => h'.isProduct (h.isProduct he), fun he => h'.isZero (h.isZero he)⟩

theorem succeeds_group {b b' : Expr} (h : EveryPart zeroTerms.Leaves (.group b))
    (hb : Succeeds b b') : Succeeds (.group b) (.group b') :=
  have hzero := hb.isZero (leaves_zeroTerms_group.1 (everyPart_group.1 h).1)
  ⟨everyPart_group.2 ⟨leaves_zeroTerms_group.2 hzero, hb.leaves⟩, fun _ => rfl,
    fun _ => hzero⟩

theorem succeeds_product {fs fs' : List Expr} (h : EveryPart zeroTerms.Leaves (.product fs))
    (hfs : List.Forall₂ Succeeds fs fs') : Succeeds (.product fs) (.product fs') := by
  obtain ⟨hlength, hfactors⟩ := leaves_zeroTerms_product.1 (everyPart_product.1 h).1
  refine ⟨everyPart_product.2 ⟨leaves_zeroTerms_product.2 ⟨?_, ?_⟩, ?_⟩, id, id⟩
  · rwa [← hfs.length_eq]
  · exact forall_of_forall₂ hfs (fun f f' hf h => ⟨hf.isProduct h.1, hf.isZero h.2⟩) hfactors
  · exact forall_right_of_forall₂ hfs fun f f' hf => hf.leaves

theorem succeeds_sum {ts ts' : List Expr} (h : EveryPart zeroTerms.Leaves (.sum ts))
    (hts : List.Forall₂ Succeeds ts ts') : Succeeds (.sum ts) (.sum ts') := by
  obtain ⟨hlength, htail⟩ := leaves_zeroTerms_sum.1 (everyPart_sum.1 h).1
  refine ⟨everyPart_sum.2 ⟨leaves_zeroTerms_sum.2 ⟨?_, ?_⟩, ?_⟩, id, id⟩
  · rwa [← hts.length_eq]
  · exact forall_of_forall₂ (forall₂_tail hts) (fun t t' ht h => ht.isZero h) htail
  · exact forall_right_of_forall₂ hts fun t t' ht => ht.leaves

/-- Wherever the rule for zero terms rests, what the step puts in place succeeds. -/
def KeepsRest (step? : Expr → Option Expr) : Prop :=
  ∀ e, EveryPart zeroTerms.Leaves e → Succeeds e ((step? e).getD e)

theorem compositional_succeeds : Compositional zeroTerms.Leaves Succeeds :=
  ⟨Succeeds.leaves, Succeeds.trans, succeeds_group, succeeds_product, succeeds_sum⟩

/-- A step that lets the rule for zero terms rest does so when it is taken everywhere. -/
theorem KeepsRest.replace {step? : Expr → Option Expr} (hstep : KeepsRest step?) {e : Expr}
    (h : EveryPart zeroTerms.Leaves e) : Succeeds e (e.replace step?) :=
  compositional_succeeds.replace hstep h

theorem keepsRest_aliases (map : AliasMap) : KeepsRest (aliases map).step? := by
  intro e h
  cases he : (aliases map).step? e with
  | none => exact .refl h
  | some e' =>
    cases e with
    | power b k =>
      obtain ⟨n, -, rfl⟩ := Option.map_eq_some_iff.1 he
      exact ⟨everyPart_alias.2 (rfl), fun _ => rfl, fun _ => rfl⟩
    | symbol b =>
      obtain ⟨n, -, rfl⟩ := Option.map_eq_some_iff.1 he
      exact ⟨everyPart_alias.2 (rfl), fun _ => rfl, fun _ => rfl⟩
    | _ => exact absurd he (by simp [aliases])

theorem isZero_ofFactors {es : List Expr} (h : ∀ e ∈ es, e.isZero = false) :
    (ofFactors es).isZero = false := by
  unfold ofFactors
  split
  · exact h _ List.mem_cons_self
  · rfl

/-- Where the rule for zero terms rests, a product loses its factors 1 and nothing else. -/
theorem keepsRest_unitFactors : KeepsRest unitFactors.step? := by
  intro e h
  cases e with
  | product fs =>
    obtain ⟨hself, hparts⟩ := everyPart_product.1 h
    obtain ⟨-, hfs⟩ := leaves_zeroTerms_product.1 hself
    have hkept : ∀ f ∈ fs.filter (!·.isOne), f.isProduct = false ∧ f.isZero = false :=
      fun f hf => hfs f (List.mem_of_mem_filter hf)
    rw [unitFactors_product, Option.getD_some, factorsAll_eq_self fun f hf => (hfs f hf).1]
    split
    · exact ⟨everyPart_const.2 (rfl), fun hp => absurd hp (by simp [Expr.isProduct]),
        fun _ => rfl⟩
    · refine ⟨everyPart_ofFactors (fun hlength => ?_) ?_, ?_, ?_⟩
      · exact leaves_zeroTerms_product.2 ⟨hlength, hkept⟩
      · exact fun f hf => hparts f (List.mem_of_mem_filter hf)
      · exact fun hp => absurd hp (by simp [Expr.isProduct])
      · exact fun _ => isZero_ofFactors fun f hf => (hkept f hf).2
  | sum ts =>
    obtain ⟨hlength, -⟩ := leaves_zeroTerms_sum.1 (everyPart_sum.1 h).1
    match ts with
    | [] | [_] => exact absurd hlength (by simp)
    | _ :: _ :: _ => exact .refl h
  | _ => exact .refl h

end Rule

/-! ## Simplified expressions -/

/-- All rules but the one for unit factors rest on the expression, and no product in it is
without factors. -/
structure Tidy (map : AliasMap) (e : Expr) : Prop where
  zeroPower : EveryPart Rule.zeroPower.Leaves e
  unitPower : EveryPart Rule.unitPower.Leaves e
  zeroTerms : EveryPart Rule.zeroTerms.Leaves e
  aliases : EveryPart (Rule.aliases map).Leaves e
  ne_empty : EveryPart (· ≠ .product []) e

theorem shape_ne_empty : ShapeProperty (· ≠ .product []) where
  group _ _ _ := by simp
  product fs gs hlength h := by
    cases gs with
    | nil => exact absurd (congrArg Expr.product (List.length_eq_zero_iff.1 hlength)) h
    | cons g gs => simp
  sum _ _ _ _ := by simp

mutual
theorem factors_ne_nil {e : Expr} (h : EveryPart (· ≠ .product []) e) : e.factors ≠ [] := by
  cases e with
  | product fs =>
    obtain ⟨hself, hfs⟩ := everyPart_product.1 h
    exact factorsAll_ne_nil (fun hnil => hself (congrArg Expr.product hnil)) hfs
  | _ => exact List.cons_ne_nil _ _

theorem factorsAll_ne_nil {es : List Expr} (hne : es ≠ [])
    (h : ∀ e ∈ es, EveryPart (· ≠ .product []) e) : factorsAll es ≠ [] := by
  cases es with
  | nil => exact absurd rfl hne
  | cons e es =>
    rw [factorsAll]
    exact List.append_ne_nil_of_left_ne_nil (factors_ne_nil (h e List.mem_cons_self)) _
end

/-- The rule for unit factors leaves at least two factors in a product. -/
theorem ne_empty_of_leaves {e : Expr} (h : EveryPart Rule.unitFactors.Leaves e) :
    EveryPart (· ≠ .product []) e := by
  rintro _ hp rfl
  obtain ⟨hlength, -⟩ := Rule.leaves_unitFactors_product.1 (h _ hp)
  exact absurd hlength (by simp)

theorem keepsParts_ne_empty_zeroTerms : KeepsParts (· ≠ .product []) Rule.zeroTerms.step? := by
  intro e e' he h
  cases e with
  | product fs =>
    obtain ⟨hself, hfs⟩ := everyPart_product.1 h
    injection he with he
    subst he
    split
    · exact everyPart_const.2 (by simp)
    · refine everyPart_ofFactors (fun _ hnil => ?_) (everyPart_factorsAll hfs)
      rw [Expr.product.injEq] at hnil
      exact factorsAll_ne_nil (fun hnil => hself (congrArg Expr.product hnil)) hfs hnil
  | group b =>
    simp only [Rule.zeroTerms, Option.ite_none_right_eq_some, Option.some.injEq] at he
    exact he.2 ▸ everyPart_const.2 (by simp)
  | sum ts =>
    cases ts with
    | nil =>
      injection he with he
      exact he ▸ everyPart_const.2 (by simp)
    | cons t ts =>
      injection he with he
      have hts := (everyPart_sum.1 h).2
      rw [List.forall_mem_cons] at hts
      refine he ▸ everyPart_ofTerms (fun _ => by simp) ?_
      rw [List.forall_mem_cons]
      exact ⟨hts.1, fun u hu => hts.2 u (List.mem_of_mem_filter hu)⟩
  | _ => exact absurd he (by simp [Rule.zeroTerms])

theorem keepsParts_ne_empty_aliases (map : AliasMap) :
    KeepsParts (· ≠ .product []) (Rule.aliases map).step? := by
  intro e e' he _
  cases e with
  | power b k =>
    obtain ⟨n, -, rfl⟩ := Option.map_eq_some_iff.1 he
    exact everyPart_alias.2 (by simp)
  | symbol b =>
    obtain ⟨n, -, rfl⟩ := Option.map_eq_some_iff.1 he
    exact everyPart_alias.2 (by simp)
  | _ => exact absurd he (by simp [Rule.aliases])

theorem simplify_eq (map : AliasMap) (e : Expr) :
    simplify map e = (Rule.aliases map).apply (Rule.zeroTerms.apply (Rule.unitFactors.apply
      (Rule.unitPower.apply (Rule.zeroPower.apply e)))) := rfl

theorem tidy_simplify (map : AliasMap) (e : Expr) : Tidy map (simplify map e) := by
  have hzero := Rule.settles_zeroPower e
  have hunit := Rule.settles_unitPower (Rule.zeroPower.apply e)
  have hfactors := Rule.settles_unitFactors (Rule.unitPower.apply (Rule.zeroPower.apply e))
  have hterms := Rule.settles_zeroTerms
    (Rule.unitFactors.apply (Rule.unitPower.apply (Rule.zeroPower.apply e)))
  constructor
  · have hrules : ∀ r ∈ [Rule.unitPower, .unitFactors, .zeroTerms, .aliases map],
        r ∈ Rule.standard map := by simp [Rule.standard]
    exact (Rule.inherited_leaves_zeroPower map).everyPart_rules hrules hzero
  · have hrules : ∀ r ∈ [Rule.unitFactors, .zeroTerms, .aliases map],
        r ∈ Rule.standard map := by simp [Rule.standard]
    exact (Rule.inherited_leaves_unitPower map).everyPart_rules hrules hunit
  · exact ((Rule.keepsRest_aliases map).replace hterms).leaves
  · exact Rule.settles_aliases map _
  · exact everyPart_replace shape_ne_empty (keepsParts_ne_empty_aliases map)
      (everyPart_replace shape_ne_empty keepsParts_ne_empty_zeroTerms (ne_empty_of_leaves hfactors))

namespace Tidy

variable {map : AliasMap} {e : Expr}

theorem unitFactors (h : Tidy map e) : Tidy map (Rule.unitFactors.apply e) := by
  have hmem : Rule.unitFactors ∈ Rule.standard map := by simp [Rule.standard]
  constructor
  · exact (Rule.inherited_leaves_zeroPower map).everyPart_apply hmem h.zeroPower
  · exact (Rule.inherited_leaves_unitPower map).everyPart_apply hmem h.unitPower
  · exact (Rule.keepsRest_unitFactors.replace h.zeroTerms).leaves
  · exact (Rule.inherited_leaves_aliases map).everyPart_apply hmem h.aliases
  · exact ne_empty_of_leaves (Rule.settles_unitFactors e)

/-- All that a further run does to a simplified expression is to take unit factors away. -/
theorem simplify_eq (h : Tidy map e) : simplify map e = Rule.unitFactors.apply e := by
  rw [GaussianIntegrals.simplify_eq, Rule.apply_eq_self h.zeroPower,
    Rule.apply_eq_self h.unitPower, Rule.apply_eq_self h.unitFactors.zeroTerms,
    Rule.apply_eq_self h.unitFactors.aliases]

/-- The rule for unit factors rests on a simplified expression whose products have no factor 1. -/
theorem leaves_unitFactors_iff (h : Tidy map e) :
    EveryPart Rule.unitFactors.Leaves e ↔ ∀ fs, .product fs ∈ e.walk → .const 1 ∉ fs := by
  constructor
  · intro hleaves fs hfs hone
    have hfactor := ((Rule.leaves_unitFactors_product.1 (hleaves _ hfs)).2 _ hone).2
    exact absurd hfactor (by decide)
  · intro hone p hp
    cases p with
    | product fs =>
      obtain ⟨hlength, hfactors⟩ := Rule.leaves_zeroTerms_product.1 (h.zeroTerms _ hp)
      have hpos : fs.length ≠ 0 := by
        rw [Ne, List.length_eq_zero_iff]
        rintro rfl
        exact h.ne_empty _ hp rfl
      refine Rule.leaves_unitFactors_product.2 ⟨by omega, fun f hf => ⟨(hfactors f hf).1, ?_⟩⟩
      cases f with
      | const v =>
        refine beq_eq_false_iff_ne.2 ?_
        rintro rfl
        exact hone fs hp hf
      | _ => rfl
    | sum ts =>
      obtain ⟨hlength, -⟩ := Rule.leaves_zeroTerms_sum.1 (h.zeroTerms _ hp)
      exact Rule.leaves_unitFactors_sum.2 (by omega)
    | _ => rfl

end Tidy

/-- **Simplification comes to rest after at most two runs**, and after one run exactly when no
product that is left has a factor 1. Each of the rules comes to rest after one. -/
theorem simplify_comes_to_rest (map : AliasMap) :
    (∀ e, simplify map (simplify map (simplify map e)) = simplify map (simplify map e)) ∧
      (∀ e, simplify map (simplify map e) = simplify map e ↔
        ∀ fs, .product fs ∈ (simplify map e).walk → .const 1 ∉ fs) ∧
      ∀ r ∈ Rule.standard map, ∀ e, r.apply (r.apply e) = r.apply e := by
  refine ⟨fun e => ?_, fun e => ?_, fun r hr => (Rule.settles_standard hr).apply_apply⟩
  · have h := tidy_simplify map e
    rw [h.simplify_eq, h.unitFactors.simplify_eq, Rule.settles_unitFactors.apply_apply]
  · have h := tidy_simplify map e
    rw [h.simplify_eq, Rule.settles_unitFactors.apply_eq_self_iff, h.leaves_unitFactors_iff]

/-- Of `eps * (1 + 0)` the first run leaves the factor 1, and the rule for unit factors, like
every rule, does nothing when it is applied again. -/
theorem simplify_comes_to_rest_nuclear :
    Rule.unitFactors ∈ Rule.standard .nuclear ∧
      simplify .nuclear (.product [.symbol "eps", .sum [.one, .zero]]) =
        .product [.alias "e1" (.symbol "eps"), .one] ∧
      simplify .nuclear (.product [.alias "e1" (.symbol "eps"), .one]) ≠
        .product [.alias "e1" (.symbol "eps"), .one] ∧
      Rule.unitFactors.apply (Rule.unitFactors.apply (.product [.symbol "eps", .one])) =
        Rule.unitFactors.apply (.product [.symbol "eps", .one]) := by
  have hmem : Rule.unitFactors ∈ Rule.standard .nuclear := by simp [Rule.standard]
  have hfirst : simplify .nuclear (.product [.symbol "eps", .sum [.one, .zero]]) =
      .product [.alias "e1" (.symbol "eps"), .one] := by decide
  refine ⟨hmem, hfirst, ?_, (simplify_comes_to_rest .nuclear).2.2 _ hmem _⟩
  intro h
  rw [← hfirst, (simplify_comes_to_rest .nuclear).2.1, hfirst] at h
  exact h [.alias "e1" (.symbol "eps"), .one] List.mem_cons_self (by decide)

end GaussianIntegrals
