/-
  Kinetic energy and momentum as weighted sums of overlaps in which the exponents of
  orbital 2 are raised or lowered on one axis. A lowered exponent below zero contributes an
  explicit zero.
-/
import GaussianIntegrals.Expansion.Overlap

namespace GaussianIntegrals

/-- The overlap with orbital 2 lowered by `step` on an axis, zero below exponent 0. -/
def loweredOverlap (t1 t2 : Triad) (step : Int) (a : Axis) : Expr :=
  if 0 ≤ t2.on a - step then overlap t1 (t2.shift (-step) a) else .zero

/-- The unshifted term of the kinetic energy, with weight `Σ (2 d + 1)`. -/
def kineticBase (t1 t2 : Triad) : Expr :=
  let weight := Axis.all.foldl (fun w a => w + (2 * t2.on a + 1)) 0
  .product [.const weight, .symbol "a2", overlap t1 t2]

/-- The term of the kinetic energy with orbital 2 raised by two on an axis. -/
def kineticRaised (t1 t2 : Triad) (a : Axis) : Expr :=
  .product [.const (-2), .power "a2" 2, overlap t1 (t2.shift 2 a)]

/-- The term of the kinetic energy with orbital 2 lowered by two on an axis, with weight
`-(d ^ 2 - d) / 2`. -/
def kineticLowered (t1 t2 : Triad) (a : Axis) : Expr :=
  let d := t2.on a
  .product [.const (-(((d * d - d : Int) : Rat) / 2)), loweredOverlap t1 t2 2 a]

/-- The kinetic energy integral: a prefactor times a sum of seven terms. -/
def kineticEnergy (t1 t2 : Triad) (prefactor : String) : Expr :=
  .product [.symbol prefactor,
    .sum (kineticBase t1 t2 :: (Axis.all.map (kineticRaised t1 t2) ++
      Axis.all.map (kineticLowered t1 t2)))]

/-- The momentum integral along an axis:
a prefactor times `d · S(-1) - 2 a2 · S(+1)` with the degree `d` of orbital 2. -/
def momentum (t1 t2 : Triad) (a : Axis) (prefactor : String) : Expr :=
  .product [.symbol prefactor,
    .sum [
      .product [.const (t2.on a), .group (loweredOverlap t1 t2 1 a)],
      .product [.const (-2), .symbol "a2", .group (overlap t1 (t2.shift 1 a))]]]

end GaussianIntegrals
