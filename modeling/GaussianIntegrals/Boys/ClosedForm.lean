/-
  The closed form of the Boys function `F_n(T) = ∫₀¹ t ^ (2 n) exp (-T t²) dt`:
  `scale · (√π / (4^n T^(n+1/2)) · erf √T - exp (-T) · Σ tail_k T^-(k+1))`.
-/
import GaussianIntegrals.Combinatorics
import GaussianIntegrals.Number.Literal
import GaussianIntegrals.Number.Shortest

namespace GaussianIntegrals.Boys

/-- The greatest order with a closed form. -/
def greatestOrder : Nat := 10

/-- An order has no closed form here. -/
structure OrderOutside where
  order : Int
  deriving DecidableEq, Repr

/-- The wording of that error. -/
def OrderOutside.message (e : OrderOutside) : String :=
  Text.showInt e.order fun order => s!"Boys function order {order} outside 0..{greatestOrder}"

/-- The coefficients of a closed form. -/
structure ClosedForm where
  order : Int
  scale : Rat
  tail : List Rat
  deriving DecidableEq, Repr

namespace ClosedForm

/-- `4 ^ n`, the number under the error function. -/
def erfDenominator (f : ClosedForm) : Rat := Rat.zpow 4 f.order

/-- The text of that number: in full, or as short as a machine float allows where it is below
one. -/
def erfDenominatorText (f : ClosedForm) : Except Number.NumberError String :=
  if 0 ≤ f.order then Number.literal f.erfDenominator
  else
    match Number.Binary.nearest? 1 (Nat.pow 4 f.order.natAbs) with
    | some b => .ok b.shortestText
    | none => .error .tooLarge

/-- The coefficients of order `n`: the scale `(2n)! / (2 n!)` and the tail
`(n-k)! / (4^k (2n-2k)!)` for `k < n`. -/
def coefficients (n : Nat) : ClosedForm where
  order := n
  scale := (factorial (2 * n) : Rat) / (2 * factorial n : Nat)
  tail := (List.range n).map fun k =>
    (factorial (n - k) : Rat) / (Nat.pow 4 k * factorial (2 * n - 2 * k) : Nat)

/-- The closed form of an order up to the greatest. -/
def ofOrder (n : Int) : Except OrderOutside ClosedForm :=
  if n < 0 ∨ (greatestOrder : Int) < n then .error ⟨n⟩ else .ok (coefficients n.toNat)

/-- One term of the tail. A unit coefficient is left out where that is asked for. -/
def tailTerm (dropUnits : Bool) (coefficient : Rat) (k : Nat) :
    Except Number.NumberError String := do
  let power := s!"XX**(-{k + 1})"
  if dropUnits && coefficient == 1 then .ok power
  else .ok (s!"({← Number.literal coefficient})*" ++ power)

/-- The tail with its leading minus sign. An empty tail is left out or written as zero. -/
def tailText (f : ClosedForm) (short : Bool) : Except Number.NumberError String :=
  if f.tail.isEmpty then .ok (if short then "" else "-exp_XX*(0d0)")
  else do
    let terms ← f.tail.zipIdx.mapM fun (c, k) => tailTerm short c k
    .ok ("-exp_XX*(" ++ "+".intercalate terms ++ ")")

/-- The assignment of the closed form, in short or in full. -/
def render (f : ClosedForm) (short : Bool) : Except Number.NumberError String := do
  let order ← (Text.writeInt f.order).mapError .integer
  let scale ← Number.literal f.scale
  let denominator ← f.erfDenominatorText
  let tail ← f.tailText short
  .ok (s!"F{order} = {scale}*((sqrt_pi/({denominator}*XX**({order}.5d0)))*erf_XX" ++ tail ++ ")")

end ClosedForm

/-- Why a list of closed forms has no text. -/
inductive ClosedFormError where
  | order (cause : OrderOutside)
  | number (cause : Number.NumberError)
  deriving DecidableEq, Repr

/-- The wording of that error. -/
def ClosedFormError.message : ClosedFormError → String
  | .order cause => cause.message
  | .number cause => cause.message

/-- The texts of the closed forms of order 0 up to `greatest`. -/
def closedFormTexts (greatest : Int) : Except ClosedFormError (List String) :=
  (List.range (greatest + 1).toNat).mapM fun (n : Nat) => do
    let f ← (ClosedForm.ofOrder n).mapError .order
    (f.render true).mapError .number

/-- The series for small `T` with a number of terms. -/
def seriesText (terms : Int) : String :=
  let term := fun i => s!"(gamma(N + 0.5d0)*XX**{i})/gamma(N + {i} + 1.5d0)"
  "S(N+1) = 0.5d0*exp_XX*(" ++ " + ".intercalate ((List.range terms.toNat).map term) ++ ")"

end GaussianIntegrals.Boys
