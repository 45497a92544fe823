/-
  The normal form of simplified expressions. It is a condition on each part by itself
  (`Normal`): no power has exponent 0 or 1 or a short name, no symbol has a short name, and
  products, sums and groups have no zeros and no nested products that a rule would take away.

  Whatever the simplification returns is in normal form (`simplify_reaches_normal_form`). The
  form does not speak of factors 1, which a first run can leave; without them it describes the
  expressions that the simplification does not change (`simplify_eq_self_iff`).
-/
import GaussianIntegrals.Proofs.SimplifyStable

namespace GaussianIntegrals

open Expr

/-- The expression, its parts apart, is as the simplification leaves it. -/
def Normal (map : AliasMap) : Expr → Prop
  | .const _ => True
  | .symbol n => map.lookup (n, 1) = none
  | .power b k => k ≠ 0 ∧ k ≠ 1 ∧ map.lookup (b, k) = none
  | .alias _ _ => True
  | .group b => b.isZero = false
  | .product fs => 2 ≤ fs.length ∧ ∀ f ∈ fs, f.isProduct = false ∧ f.isZero = false
  | .sum ts => 2 ≤ ts.length ∧ ∀ t ∈ ts.tail, t.isZero = false

/-! ## Rules at rest on leaves -/

namespace Rule

theorem leaves_zeroPower_power {b : String} {k : Int} :
    zeroPower.Leaves (.power b k) ↔ k ≠ 0 := by
  unfold Leaves
  by_cases hk : k = 0 <;> simp [zeroPower, hk, one]

theorem leaves_unitPower_power {b : String} {k : Int} :
    unitPower.Leaves (.power b k) ↔ k ≠ 1 := by
  unfold Leaves
  by_cases hk : k = 1 <;> simp [unitPower, hk]

theorem leaves_aliases_power {map : AliasMap} {b : String} {k : Int} :
    (aliases map).Leaves (.power b k) ↔ map.lookup (b, k) = none := by
  unfold Leaves
  cases hb : map.lookup (b, k) <;> simp [aliases, hb]

theorem leaves_aliases_symbol {map : AliasMap} {n : String} :
    (aliases map).Leaves (.symbol n) ↔ map.lookup (n, 1) = none := by
  unfold Leaves
  cases hn : map.lookup (n, 1) <;> simp [aliases, hn]

end Rule

/-! ## Tidy expressions -/

variable {map : AliasMap} {e : Expr}

theorem Tidy.normal (h : Tidy map e) : EveryPart (Normal map) e := by
  intro p hp
  cases p with
  | symbol n => exact Rule.leaves_aliases_symbol.1 (h.aliases _ hp)
  | power b k =>
    exact ⟨Rule.leaves_zeroPower_power.1 (h.zeroPower _ hp),
      Rule.leaves_unitPower_power.1 (h.unitPower _ hp),
      Rule.leaves_aliases_power.1 (h.aliases _ hp)⟩
  | group b => exact Rule.leaves_zeroTerms_group.1 (h.zeroTerms _ hp)
  | product fs =>
    obtain ⟨hlength, hfs⟩ := Rule.leaves_zeroTerms_product.1 (h.zeroTerms _ hp)
    have hne : fs.length ≠ 0 := fun h0 =>
      h.ne_empty _ hp (congrArg Expr.product (List.length_eq_zero_iff.1 h0))
    exact ⟨by omega, hfs⟩
  | sum ts => exact Rule.leaves_zeroTerms_sum.1 (h.zeroTerms _ hp)
  | _ => trivial

theorem tidy_of_normal (h : EveryPart (Normal map) e) : Tidy map e where
  zeroPower p hp := by
    cases p with
    | power b k => exact Rule.leaves_zeroPower_power.2 (h _ hp).1
    | _ => rfl
  unitPower p hp := by
    cases p with
    | power b k => exact Rule.leaves_unitPower_power.2 (h _ hp).2.1
    | _ => rfl
  zeroTerms p hp := by
    cases p with
    | group b => exact Rule.leaves_zeroTerms_group.2 (h _ hp)
    | product fs =>
      obtain ⟨hlength, hfs⟩ := h _ hp
      exact Rule.leaves_zeroTerms_product.2 ⟨by omega, hfs⟩
    | sum ts => exact Rule.leaves_zeroTerms_sum.2 (h _ hp)
    | _ => rfl
  aliases p hp := by
    cases p with
    | symbol n => exact Rule.leaves_aliases_symbol.2 (h _ hp)
    | power b k => exact Rule.leaves_aliases_power.2 (h _ hp).2.2
    | _ => rfl
  ne_empty p hp hnil := by
    rw [hnil] at hp
    obtain ⟨hlength, -⟩ := h _ hp
    exact absurd hlength (by simp)

/-- The simplification does not change the expressions in normal form without factors 1, and it
changes all others. -/
theorem simplify_eq_self_iff (map : AliasMap) (e : Expr) :
    simplify map e = e ↔
      EveryPart (Normal map) e ∧ ∀ fs, .product fs ∈ e.walk → .const 1 ∉ fs := by
  constructor
  · intro h
    have htidy : Tidy map e := h ▸ tidy_simplify map e
    rw [htidy.simplify_eq, Rule.settles_unitFactors.apply_eq_self_iff,
      htidy.leaves_unitFactors_iff] at h
    exact ⟨htidy.normal, h⟩
  · rintro ⟨hnormal, hone⟩
    have htidy := tidy_of_normal hnormal
    rw [htidy.simplify_eq]
    exact Rule.apply_eq_self (htidy.leaves_unitFactors_iff.2 hone)

/-- **Simplification reaches its normal form** on every expression, whatever the short names. -/
theorem simplify_reaches_normal_form (map : AliasMap) (e : Expr) :
    EveryPart (Normal map) (simplify map e) :=
  (tidy_simplify map e).normal

/-- A sum keeps its leading zero, which makes no group and no product of it zero; a second zero in
its sum would not be normal. -/
example : simplify .nuclear (.product [.group (.sum [.zero, .power "eps" 2, .zero]), .one,
    .power "x" 1]) =
      .product [.group (.sum [.zero, .alias "e2" (.power "eps" 2)]), .symbol "x"] := by
  decide

end GaussianIntegrals
