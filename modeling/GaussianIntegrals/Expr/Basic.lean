/-
  Expressions of the integral formulas: rational constants, symbols and their integer
  powers, short names that stand for a subexpression, groups, products and sums.
-/
namespace GaussianIntegrals

/-- A formula. A product of no factors is 1 and a sum of no terms is 0. -/
inductive Expr where
  /-- An exact rational constant. -/
  | const (value : Rat)
  /-- A bare symbol. -/
  | symbol (name : String)
  /-- A symbol raised to an integer power. -/
  | power (base : String) (exponent : Int)
  /-- A short name for a longer expression, which the reader of the formula defines. -/
  | alias (name : String) (target : Expr)
  /-- An expression that keeps its parentheses. -/
  | group (body : Expr)
  /-- A product of factors. -/
  | product (factors : List Expr)
  /-- A sum of terms. -/
  | sum (terms : List Expr)
  deriving Repr

namespace Expr

/-- The literal 0. -/
def zero : Expr := .const 0

/-- The literal 1. -/
def one : Expr := .const 1

/-- A coefficient times further factors. -/
def scaled (coefficient : Rat) (factors : List Expr) : Expr :=
  .product (.const coefficient :: factors)

/-- The literal 0, bare or in groups. -/
def isZero : Expr → Bool
  | .group body => body.isZero
  | .const v => v == 0
  | _ => false

/-- The literal 1. -/
def isOne : Expr → Bool
  | .const v => v == 1
  | _ => false

mutual
/-- The expression and all expressions in it, each before its parts. The target of an
alias is not a part of it. -/
def walk : Expr → List Expr
  | .const v => [.const v]
  | .symbol n => [.symbol n]
  | .power b k => [.power b k]
  | .alias n t => [.alias n t]
  | .group b => .group b :: b.walk
  | .product fs => .product fs :: walkAll fs
  | .sum ts => .sum ts :: walkAll ts

/-- `walk` through a list of expressions. -/
def walkAll : List Expr → List Expr
  | [] => []
  | e :: es => e.walk ++ walkAll es
end

/-- The number of expressions in an expression, itself included. -/
def count (e : Expr) : Nat := e.walk.length

/-- The name that an expression on its own brings into the text. -/
def ownName? : Expr → Option String
  | .symbol n => some n
  | .power b _ => some b
  | .alias n _ => some n
  | _ => none

/-- The names in the text of an expression, sorted, each once. -/
def names (e : Expr) : List String :=
  ((e.walk.filterMap ownName?).mergeSort (fun a b => a < b || a == b)).eraseReps

mutual
/-- Equality of structure. -/
def same : Expr → Expr → Bool
  | .const v, .const w => v == w
  | .symbol n, .symbol m => n == m
  | .power b k, .power c l => b == c && k == l
  | .alias n s, .alias m t => n == m && same s t
  | .group a, .group b => same a b
  | .product as, .product bs => sameAll as bs
  | .sum as, .sum bs => sameAll as bs
  | _, _ => false

/-- `same` through two lists of equal length. -/
def sameAll : List Expr → List Expr → Bool
  | [], [] => true
  | a :: as, b :: bs => same a b && sameAll as bs
  | _, _ => false
end

mutual
theorem same_iff (a b : Expr) : same a b = true ↔ a = b := by
  cases a <;> cases b <;> simp [same, Bool.and_eq_true, same_iff, sameAll_iff]

theorem sameAll_iff (as bs : List Expr) : sameAll as bs = true ↔ as = bs := by
  cases as <;> cases bs <;> simp [sameAll, Bool.and_eq_true, same_iff, sameAll_iff]
end

instance : DecidableEq Expr := fun a b => decidable_of_iff _ (same_iff a b)

end Expr

end GaussianIntegrals
