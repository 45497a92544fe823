/-
  The five rules that bring an expanded formula into its short form: powers 0 and 1, unit
  factors, zero terms, and short names for listed powers.
-/
import GaussianIntegrals.Simplify.Basic

namespace GaussianIntegrals

namespace Expr

mutual
/-- The factors of an expression, the products among its factors opened. -/
def factors : Expr → List Expr
  | .product fs => factorsAll fs
  | e => [e]

/-- `factors` of every expression of a list, in order. -/
def factorsAll : List Expr → List Expr
  | [] => []
  | e :: es => e.factors ++ factorsAll es
end

/-- A product of the given factors; a single one stands for itself. -/
def ofFactors : List Expr → Expr
  | [e] => e
  | es => .product es

/-- A sum of the given terms; a single one stands for itself. -/
def ofTerms : List Expr → Expr
  | [e] => e
  | es => .sum es

end Expr

/-- Short names for powers: a symbol, an exponent and the name. -/
abbrev AliasMap := List ((String × Int) × String)

/-- `eps`, its square and its cube. -/
def AliasMap.nuclear : AliasMap :=
  [(("eps", 1), "e1"), (("eps", 2), "e2"), (("eps", 3), "e3")]

/-- The negative powers of `Y` up to the fourth and the square of `a2`. -/
def AliasMap.kinetic : AliasMap :=
  [(("Y", -1), "Y1"), (("Y", -2), "Y2"), (("Y", -3), "Y3"), (("Y", -4), "Y4"),
   (("a2", 2), "a2_2")]

/-- No short names. -/
def AliasMap.momentum : AliasMap := []

namespace Rule

/-- A power with exponent 0 is 1. -/
def zeroPower : Rule where
  name := "zero-power"
  step?
    | .power _ k => if k = 0 then some .one else none
    | _ => none

/-- A power with exponent 1 is its symbol. -/
def unitPower : Rule where
  name := "unit-power"
  step?
    | .power b k => if k = 1 then some (.symbol b) else none
    | _ => none

/-- Products lose their factors 1 and their inner products; a product of one factor and a
sum of one term are that factor and that term. -/
def unitFactors : Rule where
  name := "unit-factors"
  step?
    | .product fs =>
      match (Expr.factorsAll fs).filter (!·.isOne) with
      | [] => some .one
      | es => some (.ofFactors es)
    | .sum [t] => some t
    | _ => none

/-- A product with a factor 0 and a group of 0 are 0, and so is a sum of no terms. A sum
keeps its first term, zero or not, and loses the zeros after it. -/
def zeroTerms : Rule where
  name := "zero-terms"
  step?
    | .product fs =>
      let es := Expr.factorsAll fs
      some (if es.any (·.isZero) then .zero else .ofFactors es)
    | .group b => if b.isZero then some .zero else none
    | .sum [] => some .zero
    | .sum (t :: ts) => some (.ofTerms (t :: ts.filter (!·.isZero)))
    | _ => none

/-- Listed powers, and symbols listed with exponent 1, get their short names. -/
def aliases (map : AliasMap) : Rule where
  name := "aliases"
  step?
    | .power b k => (map.lookup (b, k)).map fun name => .alias name (.power b k)
    | .symbol n => (map.lookup (n, 1)).map fun name => .alias name (.symbol n)
    | _ => none

/-- The five rules in their order. -/
def standard (map : AliasMap) : List Rule :=
  [zeroPower, unitPower, unitFactors, zeroTerms, aliases map]

end Rule

/-- The short form of an expression under the five rules. -/
def simplify (map : AliasMap) (e : Expr) : Expr := simplifyWith (Rule.standard map) e

end GaussianIntegrals
