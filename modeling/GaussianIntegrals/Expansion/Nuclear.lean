/-
  The three-centre nuclear attraction integral of two orbitals: on each axis a sum over
  `l ≤ e1 + e2`, over `r` and `i` with `2 r + 2 i ≤ l`, and over `u ≤ l`. Each term carries
  one Boys function.
-/
import GaussianIntegrals.Combinatorics
import GaussianIntegrals.Expansion.Summand
import GaussianIntegrals.Triad

namespace GaussianIntegrals

/-- The reduction indices of one axis. -/
structure Reduction where
  l : Nat
  r : Nat
  i : Nat
  deriving DecidableEq, Repr

namespace Reduction

/-- All reduction indices with `l` up to `total`. -/
def upTo (total : Int) : List Reduction :=
  (List.range (total + 1).toNat).flatMap fun l =>
    (List.range (l / 2 + 1)).flatMap fun r =>
      (List.range ((l - 2 * r) / 2 + 1)).map fun i => ⟨l, r, i⟩

/-- The exponent that is left for `PC`. -/
def rest (k : Reduction) : Nat := k.l - 2 * k.r - 2 * k.i

/-- The factorial quotient `l! / (i! r! (l - 2 r - 2 i)!)`. -/
def weight (k : Reduction) : Rat :=
  (factorial k.l : Rat) / (factorial k.i * factorial k.r * factorial k.rest : Nat)

end Reduction

/-- The reduction indices of an axis with the share `u` of orbital 1. -/
structure AxisIndex where
  axis : Axis
  reduction : Reduction
  u : Nat
  deriving DecidableEq, Repr

/-- All index triples, the reductions of the three axes outermost, the shares innermost. -/
def nuclearIndices (t1 t2 : Triad) : List (List AxisIndex) :=
  let reductions := fun a => Reduction.upTo (t1.on a + t2.on a)
  (reductions .x).flatMap fun kx =>
    (reductions .y).flatMap fun ky =>
      (reductions .z).flatMap fun kz =>
        (List.range (kx.l + 1)).flatMap fun ux =>
          (List.range (ky.l + 1)).flatMap fun uy =>
            (List.range (kz.l + 1)).map fun uz => [⟨.x, kx, ux⟩, ⟨.y, ky, uy⟩, ⟨.z, kz, uz⟩]

namespace AxisIndex

/-- The product of the two binomial coefficients of an axis. -/
def binomials (t1 t2 : Triad) (k : AxisIndex) : Nat :=
  binomial (t1.on k.axis) k.u * binomial (t2.on k.axis) ((k.reduction.l : Int) - k.u)

/-- The powers of the three centres on an axis. -/
def powers (t1 t2 : Triad) (k : AxisIndex) : List (String × Int) :=
  let number := k.axis.number
  [(centreSymbol "PA" number, t1.on k.axis - k.u),
   (centreSymbol "PB" number, t2.on k.axis - k.reduction.l + k.u),
   (centreSymbol "PC" number, k.reduction.rest)]

end AxisIndex

/-- The term at one index triple. Its sign is that of `(-1) ^ Σ (l + i)`, its power of `eps`
is `Σ (r + i)`, and its Boys function has order `Σ (l - 2 r - i)`. -/
def nuclearTerm (t1 t2 : Triad) (ks : List AxisIndex) : Summand :=
  if ks.any fun k => k.binomials t1 t2 == 0 then .zero
  else
    let total := fun (g : AxisIndex → Nat) => ks.foldl (fun n k => n + g k) 0
    let magnitude := ks.foldl (fun c k => c * ((k.binomials t1 t2 : Rat) * k.reduction.weight)) 1
    let odd := total (fun k => k.reduction.l + k.reduction.i) % 2 == 1
    let epsPower := total fun k => k.reduction.r + k.reduction.i
    let order := total fun k => k.reduction.l - 2 * k.reduction.r - k.reduction.i
    { coefficient := if odd then -magnitude else magnitude
      powers := ks.flatMap (AxisIndex.powers t1 t2) ++ [("eps", (epsPower : Int))]
      -- an order is at most the degree, so that the limit of written integers does not matter here
      symbols := [s!"F{order}"]
      vanished := false }

/-- All terms of the nuclear attraction sum, the vanished ones in their places. -/
def nuclearTerms (t1 t2 : Triad) : List Summand := (nuclearIndices t1 t2).map (nuclearTerm t1 t2)

/-- The nuclear attraction integral: a prefactor times the sum of its terms. -/
def nuclearAttraction (t1 t2 : Triad) (prefactor : String) : Expr :=
  .product [.symbol prefactor, .ofTermList (nuclearTerms t1 t2)]

end GaussianIntegrals
