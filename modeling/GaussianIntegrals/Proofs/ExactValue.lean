/-
  The exact value of an expression, read as a relation: a product has the product of its
  factors' values and a sum the sum of its terms' values, each defined exactly when all
  parts are.
-/
import GaussianIntegrals.Expansion.Summand
import GaussianIntegrals.Expr.Value
import Mathlib.Algebra.BigOperators.Group.List.Basic
import Mathlib.Algebra.Field.Rat
import Mathlib.Data.List.Forall2
import Mathlib.Tactic.Ring

namespace GaussianIntegrals.Expr

/-- The expression has the exact value `x`. -/
def HasValue (values : String → Option ℚ) (e : Expr) (x : ℚ) : Prop :=
  exactValue values e = .ok x

variable {values : String → Option ℚ}

theorem HasValue.unique {e : Expr} {x y : ℚ} (hx : HasValue values e x)
    (hy : HasValue values e y) : x = y := by
  have h : Except.ok x = Except.ok y := (Eq.symm hx).trans hy
  injection h

theorem hasValue_const {v x : ℚ} : HasValue values (.const v) x ↔ v = x := by
  simp [HasValue, exactValue, eval, exactArithmetic]

theorem hasValue_symbol {n : String} {x : ℚ} :
    HasValue values (.symbol n) x ↔ values n = some x := by
  cases h : values n <;> simp [HasValue, exactValue, eval, lookup, h]

theorem hasValue_group {b : Expr} {x : ℚ} :
    HasValue values (.group b) x ↔ HasValue values b x := by
  simp [HasValue, exactValue, eval]

/-- A power has a value when its base has one and zero is not inverted. -/
theorem hasValue_power {b : String} {k : ℤ} {x : ℚ} :
    HasValue values (.power b k) x ↔
      ∃ y, values b = some y ∧ (y = 0 → 0 ≤ k) ∧ y ^ k = x := by
  have hz : ∀ y : ℚ, Rat.zpow y k = y ^ k := fun _ => rfl
  cases h : values b with
  | none =>
    simp [HasValue, exactValue, eval, lookup, h, bind, Except.bind]
  | some y =>
    simp only [HasValue, exactValue, eval, lookup, h, bind, Except.bind, exactArithmetic,
      ratPower, hz]
    split
    · next hc => simp [hc.1, hc.2]
    · next hc =>
      constructor
      · intro he
        injection he with he
        exact ⟨y, rfl, fun h0 => by by_contra hk; exact hc ⟨h0, by omega⟩, he⟩
      · rintro ⟨y', hy', -, rfl⟩
        injection hy' with hy'
        rw [hy']

/-- The value of a name bound by the valuation stands for the target of an alias. -/
theorem hasValue_alias {n : String} {t : Expr} {x : ℚ} :
    HasValue values (.alias n t) x ↔
      values n = some x ∨ values n = none ∧ HasValue values t x := by
  cases h : values n <;> simp [HasValue, exactValue, eval, h]

/-! ## Products and sums -/

/-- The expressions of a list have the values of a list, one by one. -/
abbrev HaveValues (values : String → Option ℚ) : List Expr → List ℚ → Prop :=
  List.Forall₂ (HasValue values)

theorem evalProduct_eq_ok {fs : List Expr} {acc x : ℚ} :
    evalProduct exactArithmetic values acc fs = .ok x ↔
      ∃ xs, HaveValues values fs xs ∧ acc * xs.prod = x := by
  induction fs generalizing acc with
  | nil => simp [evalProduct, List.forall₂_nil_left_iff]
  | cons f fs ih =>
    simp only [evalProduct, bind, Except.bind, List.forall₂_cons_left_iff]
    cases hf : eval exactArithmetic values f with
    | error err =>
      simp [HasValue, exactValue, hf]
    | ok y =>
      simp only [exactArithmetic] at ih ⊢
      rw [ih]
      constructor
      · rintro ⟨xs, hxs, rfl⟩
        exact ⟨y :: xs, ⟨y, xs, hf, hxs, rfl⟩, by rw [List.prod_cons, mul_assoc]⟩
      · rintro ⟨_, ⟨z, xs, hz, hxs, rfl⟩, rfl⟩
        have hyz : y = z := HasValue.unique hf hz
        exact ⟨xs, hxs, by rw [List.prod_cons, hyz, mul_assoc]⟩

theorem evalSum_eq_ok {ts : List Expr} {acc x : ℚ} :
    evalSum exactArithmetic values acc ts = .ok x ↔
      ∃ xs, HaveValues values ts xs ∧ acc + xs.sum = x := by
  induction ts generalizing acc with
  | nil => simp [evalSum, List.forall₂_nil_left_iff]
  | cons t ts ih =>
    simp only [evalSum, bind, Except.bind, List.forall₂_cons_left_iff]
    cases ht : eval exactArithmetic values t with
    | error err =>
      simp [HasValue, exactValue, ht]
    | ok y =>
      simp only [exactArithmetic] at ih ⊢
      rw [ih]
      constructor
      · rintro ⟨xs, hxs, rfl⟩
        exact ⟨y :: xs, ⟨y, xs, ht, hxs, rfl⟩, by rw [List.sum_cons, add_assoc]⟩
      · rintro ⟨_, ⟨z, xs, hz, hxs, rfl⟩, rfl⟩
        have hyz : y = z := HasValue.unique ht hz
        exact ⟨xs, hxs, by rw [List.sum_cons, hyz, add_assoc]⟩

theorem hasValue_product {fs : List Expr} {x : ℚ} :
    HasValue values (.product fs) x ↔ ∃ xs, HaveValues values fs xs ∧ xs.prod = x := by
  have h : evalProduct exactArithmetic values 1 fs = .ok x ↔ _ := evalProduct_eq_ok
  simp only [one_mul] at h
  exact h

theorem hasValue_sum {ts : List Expr} {x : ℚ} :
    HasValue values (.sum ts) x ↔ ∃ xs, HaveValues values ts xs ∧ xs.sum = x := by
  have h : evalSum exactArithmetic values 0 ts = .ok x ↔ _ := evalSum_eq_ok
  simp only [zero_add] at h
  exact h

theorem haveValues_map {α : Type} {xs : List α} {e : α → Expr} {v : α → ℚ}
    (h : ∀ a ∈ xs, HasValue values (e a) (v a)) :
    HaveValues values (xs.map e) (xs.map v) := by
  unfold HaveValues
  rw [List.forall₂_map_left_iff, List.forall₂_map_right_iff, List.forall₂_same]
  exact h

theorem haveValues_flatMap {α : Type} {xs : List α} {e : α → List Expr} {v : α → List ℚ}
    (h : ∀ a ∈ xs, HaveValues values (e a) (v a)) :
    HaveValues values (xs.flatMap e) (xs.flatMap v) := by
  induction xs with
  | nil => exact .nil
  | cons a xs ih =>
    rw [List.flatMap_cons, List.flatMap_cons]
    exact List.rel_append (h a List.mem_cons_self) (ih fun b hb => h b (List.mem_cons_of_mem a hb))

end GaussianIntegrals.Expr
