/-
  The overlap of two orbitals: on each axis a sum of moments of the product Gaussian, and in
  space the product of the three sums.
-/
import GaussianIntegrals.Combinatorics
import GaussianIntegrals.Expansion.Summand
import GaussianIntegrals.Triad

namespace GaussianIntegrals

/-- The term with the moment `2 j` and the share `s` of orbital 1:
`C(e1,s) C(e2,2j-s) (2j-1)!! / 2^j · PA^(e1-s) PB^(e2-2j+s) Y^(-j)`. -/
def overlapTerm (e1 e2 number : Int) (j s : Nat) : Summand :=
  let binomials := binomial e1 s * binomial e2 (2 * (j : Int) - s)
  if binomials = 0 then .zero
  else
    { coefficient :=
        ((binomials * doubleFactorial (2 * (j : Int) - 1) : Nat) : Rat) / (Nat.pow 2 j : Nat)
      powers := [(centreSymbol "PA" number, e1 - s), (centreSymbol "PB" number, e2 - 2 * j + s),
        ("Y", -(j : Int))]
      symbols := []
      vanished := false }

/-- All terms of the overlap on one axis, `j` outermost. -/
def overlapTerms (e1 e2 number : Int) : List Summand :=
  (List.range (Int.fdiv (e1 + e2) 2 + 1).toNat).flatMap fun j =>
    (List.range (2 * j + 1)).map (overlapTerm e1 e2 number j)

/-- The overlap on one axis. -/
def overlapSum (e1 e2 number : Int) : Expr := .ofTermList (overlapTerms e1 e2 number)

/-- The overlap in space. -/
def overlap (t1 t2 : Triad) : Expr :=
  .product (Axis.all.map fun a => overlapSum (t1.on a) (t2.on a) a.number)

end GaussianIntegrals
