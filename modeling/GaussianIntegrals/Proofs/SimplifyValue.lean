/-
  The rules keep values: where an expression has an exact value, it has the same value after
  any of the rules, in any order and any number of times.

  Each rule is one local step, and a step that keeps values keeps them in every place of an
  expression (`hasValue_replace`). So there is one lemma for each rule; the two on products
  rest on the values of an opened product (`haveValues_factorsAll`) and of a list without
  its ones or zeros.
-/
import GaussianIntegrals.Proofs.ExactValue
import GaussianIntegrals.Simplify.Rules

namespace GaussianIntegrals

open Expr

variable {values : String → Option ℚ}

namespace Expr

/-! ## Zeros and ones -/

theorem eq_zero_of_isZero {e : Expr} {x : ℚ} (h : e.isZero = true) (hx : HasValue values e x) :
    x = 0 := by
  induction e using isZero.induct with
  | case1 b ih => exact ih h (hasValue_group.1 hx)
  | case2 v =>
    rw [isZero] at h
    rw [← hasValue_const.1 hx]
    exact beq_iff_eq.1 h
  | case3 e hg hc => cases e <;> simp_all [isZero]

theorem eq_one_of_isOne {e : Expr} {x : ℚ} (h : e.isOne = true) (hx : HasValue values e x) :
    x = 1 := by
  cases e with
  | const v =>
    rw [isOne] at h
    rw [← hasValue_const.1 hx]
    exact beq_iff_eq.1 h
  | _ => exact absurd h (by simp [isOne])

theorem prod_eq_zero {es : List Expr} {xs : List ℚ} (h : HaveValues values es xs)
    (hz : es.any (·.isZero) = true) : xs.prod = 0 := by
  induction h with
  | nil => simp at hz
  | @cons e x es xs hx _ ih =>
    rw [List.any_cons, Bool.or_eq_true] at hz
    rw [List.prod_cons]
    rcases hz with hz | hz
    · rw [eq_zero_of_isZero hz hx, zero_mul]
    · rw [ih hz, mul_zero]

theorem haveValues_filter_isOne {es : List Expr} {xs : List ℚ} (h : HaveValues values es xs) :
    ∃ ys, HaveValues values (es.filter (!·.isOne)) ys ∧ ys.prod = xs.prod := by
  induction h with
  | nil => exact ⟨[], .nil, rfl⟩
  | @cons e x es xs hx _ ih =>
    obtain ⟨ys, hys, hprod⟩ := ih
    cases hone : e.isOne with
    | true =>
      rw [List.filter_cons_of_neg (by simp [hone])]
      exact ⟨ys, hys, by rw [List.prod_cons, eq_one_of_isOne hone hx, one_mul, hprod]⟩
    | false =>
      rw [List.filter_cons_of_pos (by simp [hone])]
      exact ⟨x :: ys, .cons hx hys, by rw [List.prod_cons, List.prod_cons, hprod]⟩

theorem haveValues_filter_isZero {es : List Expr} {xs : List ℚ} (h : HaveValues values es xs) :
    ∃ ys, HaveValues values (es.filter (!·.isZero)) ys ∧ ys.sum = xs.sum := by
  induction h with
  | nil => exact ⟨[], .nil, rfl⟩
  | @cons e x es xs hx _ ih =>
    obtain ⟨ys, hys, hsum⟩ := ih
    cases hzero : e.isZero with
    | true =>
      rw [List.filter_cons_of_neg (by simp [hzero])]
      exact ⟨ys, hys, by rw [List.sum_cons, eq_zero_of_isZero hzero hx, zero_add, hsum]⟩
    | false =>
      rw [List.filter_cons_of_pos (by simp [hzero])]
      exact ⟨x :: ys, .cons hx hys, by rw [List.sum_cons, List.sum_cons, hsum]⟩

/-! ## Opened products, and products and sums of a list -/

mutual
/-- The factors of an expression multiply to its value. -/
theorem haveValues_factors {e : Expr} {x : ℚ} (h : HasValue values e x) :
    ∃ xs, HaveValues values e.factors xs ∧ xs.prod = x := by
  cases e with
  | product fs =>
    obtain ⟨ys, hys, rfl⟩ := hasValue_product.1 h
    exact haveValues_factorsAll hys
  | _ => exact ⟨[x], .cons h .nil, List.prod_singleton⟩

theorem haveValues_factorsAll {es : List Expr} {xs : List ℚ} (h : HaveValues values es xs) :
    ∃ ys, HaveValues values (factorsAll es) ys ∧ ys.prod = xs.prod := by
  cases h with
  | nil => exact ⟨[], .nil, rfl⟩
  | cons hx hxs =>
    obtain ⟨ys, hys, hy⟩ := haveValues_factors hx
    obtain ⟨zs, hzs, hz⟩ := haveValues_factorsAll hxs
    exact ⟨ys ++ zs, List.rel_append hys hzs, by rw [List.prod_append, List.prod_cons, hy, hz]⟩
end

theorem hasValue_ofFactors {es : List Expr} {xs : List ℚ} (h : HaveValues values es xs) :
    HasValue values (ofFactors es) xs.prod := by
  match h with
  | .nil => exact hasValue_product.2 ⟨[], .nil, rfl⟩
  | .cons hx .nil => rwa [ofFactors, List.prod_singleton]
  | .cons hx (.cons hy hs) => exact hasValue_product.2 ⟨_, .cons hx (.cons hy hs), rfl⟩

theorem hasValue_ofTerms {es : List Expr} {xs : List ℚ} (h : HaveValues values es xs) :
    HasValue values (ofTerms es) xs.sum := by
  match h with
  | .nil => exact hasValue_sum.2 ⟨[], .nil, rfl⟩
  | .cons hx .nil => rwa [ofTerms, List.sum_singleton]
  | .cons hx (.cons hy hs) => exact hasValue_sum.2 ⟨_, .cons hx (.cons hy hs), rfl⟩

end Expr

/-! ## Steps that keep values -/

/-- Where the step replaces an expression that has a value, the replacement has it too. -/
def KeepsValue (values : String → Option ℚ) (step? : Expr → Option Expr) : Prop :=
  ∀ e e' x, step? e = some e' → HasValue values e x → HasValue values e' x

theorem KeepsValue.getD {step? : Expr → Option Expr} (hstep : KeepsValue values step?) {e : Expr}
    {x : ℚ} (h : HasValue values e x) : HasValue values ((step? e).getD e) x := by
  cases he : step? e with
  | none => exact h
  | some e' => exact hstep e e' x he h

mutual
/-- A step that keeps values keeps them wherever it is taken. -/
theorem hasValue_replace {step? : Expr → Option Expr} (hstep : KeepsValue values step?) {e : Expr}
    {x : ℚ} (h : HasValue values e x) : HasValue values (e.replace step?) x := by
  cases e with
  | group b => exact hstep.getD (hasValue_group.2 (hasValue_replace hstep (hasValue_group.1 h)))
  | product fs =>
    obtain ⟨xs, hxs, hx⟩ := hasValue_product.1 h
    exact hstep.getD (hasValue_product.2 ⟨xs, haveValues_replaceAll hstep hxs, hx⟩)
  | sum ts =>
    obtain ⟨xs, hxs, hx⟩ := hasValue_sum.1 h
    exact hstep.getD (hasValue_sum.2 ⟨xs, haveValues_replaceAll hstep hxs, hx⟩)
  | _ => exact hstep.getD h

theorem haveValues_replaceAll {step? : Expr → Option Expr} (hstep : KeepsValue values step?)
    {es : List Expr} {xs : List ℚ} (h : HaveValues values es xs) :
    HaveValues values (replaceAll step? es) xs := by
  cases h with
  | nil => exact .nil
  | cons hx hxs => exact .cons (hasValue_replace hstep hx) (haveValues_replaceAll hstep hxs)
end

/-! ## The five rules -/

theorem keepsValue_zeroPower : KeepsValue values Rule.zeroPower.step? := by
  intro e e' x he h
  cases e with
  | power b k =>
    simp only [Rule.zeroPower] at he
    split at he
    · next hk =>
      obtain ⟨y, -, -, rfl⟩ := hasValue_power.1 h
      injection he with he
      rw [← he, hk, zpow_zero]
      exact hasValue_const.2 rfl
    · exact absurd he (by simp)
  | _ => exact absurd he (by simp [Rule.zeroPower])

theorem keepsValue_unitPower : KeepsValue values Rule.unitPower.step? := by
  intro e e' x he h
  cases e with
  | power b k =>
    simp only [Rule.unitPower] at he
    split at he
    · next hk =>
      obtain ⟨y, hy, -, rfl⟩ := hasValue_power.1 h
      injection he with he
      rw [← he, hk, zpow_one]
      exact hasValue_symbol.2 hy
    · exact absurd he (by simp)
  | _ => exact absurd he (by simp [Rule.unitPower])

theorem keepsValue_unitFactors : KeepsValue values Rule.unitFactors.step? := by
  intro e e' x he h
  match e with
  | .product fs =>
    obtain ⟨xs, hxs, rfl⟩ := hasValue_product.1 h
    obtain ⟨ys, hys, hy⟩ := haveValues_factorsAll hxs
    obtain ⟨zs, hzs, hz⟩ := haveValues_filter_isOne hys
    rw [← hy, ← hz]
    simp only [Rule.unitFactors] at he
    split at he
    · next hnil =>
      rw [hnil] at hzs
      cases hzs
      injection he with he
      rw [← he]
      exact hasValue_const.2 rfl
    · injection he with he
      rw [← he]
      exact hasValue_ofFactors hzs
  | .sum [t] =>
    obtain ⟨xs, hxs, rfl⟩ := hasValue_sum.1 h
    simp only [Rule.unitFactors] at he
    injection he with he
    rw [← he]
    exact hasValue_ofTerms hxs
  | .sum [] | .sum (_ :: _ :: _) | .const _ | .symbol _ | .power _ _ | .alias _ _ | .group _ =>
    exact absurd he (by simp [Rule.unitFactors])

theorem keepsValue_zeroTerms : KeepsValue values Rule.zeroTerms.step? := by
  intro e e' x he h
  match e with
  | .product fs =>
    obtain ⟨xs, hxs, rfl⟩ := hasValue_product.1 h
    obtain ⟨ys, hys, hy⟩ := haveValues_factorsAll hxs
    rw [← hy]
    simp only [Rule.zeroTerms] at he
    injection he with he
    rw [← he]
    split
    · next hz =>
      rw [prod_eq_zero hys hz]
      exact hasValue_const.2 rfl
    · exact hasValue_ofFactors hys
  | .group b =>
    simp only [Rule.zeroTerms] at he
    split at he
    · next hz =>
      injection he with he
      rw [← he, eq_zero_of_isZero hz (hasValue_group.1 h)]
      exact hasValue_const.2 rfl
    · exact absurd he (by simp)
  | .sum [] =>
    obtain ⟨xs, hxs, rfl⟩ := hasValue_sum.1 h
    cases hxs
    simp only [Rule.zeroTerms] at he
    injection he with he
    rw [← he]
    exact hasValue_const.2 rfl
  | .sum (t :: ts) =>
    obtain ⟨_, hxs, rfl⟩ := hasValue_sum.1 h
    simp only [Rule.zeroTerms] at he
    injection he with he
    rw [← he]
    cases hxs with
    | cons hx hxs =>
      obtain ⟨ys, hys, hy⟩ := haveValues_filter_isZero hxs
      rw [List.sum_cons, ← hy, ← List.sum_cons]
      exact hasValue_ofTerms (.cons hx hys)
  | .const _ | .symbol _ | .power _ _ | .alias _ _ => exact absurd he (by simp [Rule.zeroTerms])

/-- Where a short name and the power that it stands for both have a value, they have the
same. -/
def AliasMap.Agrees (map : AliasMap) (values : String → Option ℚ) : Prop :=
  ∀ b k name x y, map.lookup (b, k) = some name → values name = some x →
    HasValue values (.power b k) y → x = y

/-- A short name has the value of the power that it stands for, in its place. -/
theorem hasValue_shortName {map : AliasMap} (hmap : map.Agrees values) {b name : String} {k : ℤ}
    (hname : map.lookup (b, k) = some name) {e : Expr} {x : ℚ} (he : HasValue values e x)
    (hpower : HasValue values (.power b k) x) : HasValue values (.alias name e) x := by
  rw [hasValue_alias]
  cases hv : values name with
  | none => exact .inr ⟨rfl, he⟩
  | some y => exact .inl (congrArg some (hmap b k name y x hname hv hpower))

theorem keepsValue_aliases {map : AliasMap} (hmap : map.Agrees values) :
    KeepsValue values (Rule.aliases map).step? := by
  intro e e' x he h
  cases e with
  | power b k =>
    obtain ⟨name, hname, rfl⟩ := Option.map_eq_some_iff.1 he
    exact hasValue_shortName hmap hname h h
  | symbol n =>
    obtain ⟨name, hname, rfl⟩ := Option.map_eq_some_iff.1 he
    refine hasValue_shortName hmap hname h (hasValue_power.2 ⟨x, hasValue_symbol.1 h, ?_, ?_⟩)
    · exact fun _ => by decide
    · exact zpow_one x
  | _ => exact absurd he (by simp [Rule.aliases])

theorem keepsValue_standard {map : AliasMap} (hmap : map.Agrees values) {r : Rule}
    (hr : r ∈ Rule.standard map) : KeepsValue values r.step? := by
  simp only [Rule.standard, List.mem_cons, List.not_mem_nil, or_false] at hr
  rcases hr with rfl | rfl | rfl | rfl | rfl
  · exact keepsValue_zeroPower
  · exact keepsValue_unitPower
  · exact keepsValue_unitFactors
  · exact keepsValue_zeroTerms
  · exact keepsValue_aliases hmap

/-- **Simplification keeps values,** whichever of the five rules are applied, in whichever
order and how often. -/
theorem exactValue_simplifyWith {map : AliasMap} (hmap : map.Agrees values) {rules : List Rule}
    (hrules : ∀ r ∈ rules, r ∈ Rule.standard map) {e : Expr} {x : ℚ}
    (he : e.exactValue values = .ok x) : (simplifyWith rules e).exactValue values = .ok x := by
  induction rules generalizing e with
  | nil => exact he
  | cons r rs ih =>
    rw [simplifyWith_cons]
    refine ih (fun s hs => hrules s (List.mem_cons_of_mem r hs)) ?_
    exact hasValue_replace (keepsValue_standard hmap (hrules r List.mem_cons_self)) he

/-- A valuation that binds two of the three short names of `eps`. -/
def shortNamePoint : String → Option ℚ
  | "eps" | "e1" => some 2
  | "e2" => some 4
  | "PA(1)" => some 0
  | _ => none

theorem agrees_shortNamePoint : AliasMap.nuclear.Agrees shortNamePoint := by
  intro b k name x y hname hx hy
  obtain ⟨z, hz, -, rfl⟩ := hasValue_power.1 hy
  obtain ⟨_, _, hmap, -⟩ := List.lookup_eq_some_iff.1 hname
  have hmem : ((b, k), name) ∈ AliasMap.nuclear := by rw [hmap]; simp
  simp only [AliasMap.nuclear, List.mem_cons, List.not_mem_nil, or_false, Prod.mk.injEq] at hmem
  rcases hmem with ⟨⟨rfl, rfl⟩, rfl⟩ | ⟨⟨rfl, rfl⟩, rfl⟩ | ⟨⟨rfl, rfl⟩, rfl⟩
  · rw [zpow_one]
    exact Option.some.inj (hx.symm.trans hz)
  · have hx4 : 4 = x := Option.some.inj hx
    have hz2 : 2 = z := Option.some.inj hz
    rw [← hx4, ← hz2]
    norm_num
  · exact absurd hx.symm (Option.some_ne_none x)

/-- Rules out of order and repeated, on `1 * (eps**2) * (eps * e1) + 3 * (PA(1)**0) + 0`. -/
theorem exactValue_simplifyWith_at_point :
    (simplifyWith [.aliases .nuclear, .zeroTerms, .unitFactors, .zeroPower, .unitFactors,
        .aliases .nuclear]
      (.sum [.product [.one, .power "eps" 2, .product [.symbol "eps", .alias "e1" (.symbol "eps")]],
        .product [.const 3, .power "PA(1)" 0], .zero])).exactValue shortNamePoint = .ok 19 := by
  refine exactValue_simplifyWith agrees_shortNamePoint ?_ ?_
  · intro r hr
    simp only [List.mem_cons, List.not_mem_nil, or_false] at hr
    rcases hr with rfl | rfl | rfl | rfl | rfl | rfl <;> simp [Rule.standard]
  · cbv

end GaussianIntegrals
