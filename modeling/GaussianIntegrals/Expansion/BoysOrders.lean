/-
  The orders of the Boys functions that an expression refers to, read from its names.
-/
import GaussianIntegrals.Expr.Basic
import GaussianIntegrals.Text.Integer

namespace GaussianIntegrals.Expr

/-- The numeral of a Boys function name: what follows `F`, if it is made of digits. -/
def boysNumeral? (name : String) : Option String :=
  match name.toList with
  | 'F' :: c :: rest =>
    if (c :: rest).all Text.isDigitLike then some (String.ofList (c :: rest)) else none
  | _ => none

/-- The orders of the Boys functions in an expression, sorted, each once. A digit sign
without a place value in such a name is an error. -/
def boysOrders (e : Expr) : Except Text.IntegerError (List Int) := do
  let orders ← (e.names.filterMap boysNumeral?).mapM Text.readInt
  .ok ((orders.mergeSort fun a b => decide (a ≤ b)).eraseReps)

end GaussianIntegrals.Expr
