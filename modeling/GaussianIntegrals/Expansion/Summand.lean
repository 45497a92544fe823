/-
  Terms of the closed forms: a coefficient, powers of symbols and bare symbols. A term with
  a vanished binomial coefficient stays in its place as a zero.
-/
import GaussianIntegrals.Expr.Basic

namespace GaussianIntegrals

/-- One summand of a closed form. -/
structure Summand where
  coefficient : Rat
  powers : List (String × Int)
  symbols : List String
  /-- The term vanished and stands for 0. -/
  vanished : Bool
  deriving DecidableEq, Repr

namespace Summand

/-- The summand that is left of a vanished term. -/
def zero : Summand := ⟨0, [], [], true⟩

/-- The term as an expression. -/
def toExpr (t : Summand) : Expr :=
  if t.vanished || t.coefficient == 0 then .zero
  else
    .product (.const t.coefficient ::
      (t.powers.map (fun p => .power p.1 p.2) ++ t.symbols.map .symbol))

end Summand

/-- The sum of a list of terms. -/
def Expr.ofTermList (ts : List Summand) : Expr := .sum (ts.map Summand.toExpr)

/-- A symbol of a centre with the number of an axis, as in `PA(1)`. -/
def centreSymbol (name : String) (number : Int) : String := s!"{name}({number})"

end GaussianIntegrals
