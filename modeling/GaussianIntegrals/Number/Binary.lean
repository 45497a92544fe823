/-
  Binary floating-point numbers of 53 significant bits, as a significand times a power of
  two, and the rounding of a rational number to the nearest of them.
-/
import GaussianIntegrals.Number.Rounding

namespace GaussianIntegrals.Number

/-- The non-negative number `significand · 2 ^ exponent`. -/
structure Binary where
  significand : Nat
  exponent : Int
  deriving DecidableEq, Repr

/-- Significant bits. -/
def precision : Nat := 53

/-- The exponent of the spacing of the smallest numbers. -/
def leastExponent : Int := -1074

/-- The exponent of the spacing of the largest numbers. -/
def greatestExponent : Int := 971

/-- The exponent at which `n / d` has exactly `precision` bits before the point. -/
def spacing (n d : Nat) : Int :=
  let e : Int := (n.log2 : Int) - d.log2 - (precision - 1)
  let (p, q) := powQuotient 2 e
  if n * q < Nat.pow 2 (precision - 1) * (d * p) then e - 1 else e

/-- The number nearest to `n / d`, ties to even; `none` when it is too large for any. -/
def Binary.nearest? (n d : Nat) : Option Binary :=
  if n = 0 then some ⟨0, leastExponent⟩
  else
    let e := max (spacing n d) leastExponent
    let m := roundAt 2 n d e
    let b : Binary := if m = Nat.pow 2 precision then ⟨Nat.pow 2 (precision - 1), e + 1⟩ else ⟨m, e⟩
    if greatestExponent < b.exponent then none else some b

/-- The number as a quotient. -/
def Binary.toQuotient (b : Binary) : Nat × Nat :=
  let (p, q) := powQuotient 2 b.exponent
  (b.significand * p, q)

/-- The number as a machine float. -/
def Binary.toFloat (b : Binary) : Float := (Float.ofNat b.significand).scaleB b.exponent

/-- The rational number rounded to a machine float, if one is large enough. -/
def floatOfRat? (v : Rat) : Option Float :=
  (Binary.nearest? v.num.natAbs v.den).map fun b =>
    if v.num < 0 then -b.toFloat else b.toFloat

/-- The sign and the magnitude of a finite machine float. -/
def Binary.ofFloat (x : Float) : Bool × Binary :=
  let bits := x.toBits.toNat
  let fraction := bits % Nat.pow 2 52
  let field := bits / Nat.pow 2 52 % Nat.pow 2 11
  (bits / Nat.pow 2 63 = 1,
    if field = 0 then ⟨fraction, leastExponent⟩
    else ⟨Nat.pow 2 52 + fraction, leastExponent + field - 1⟩)

end GaussianIntegrals.Number
