/-
  Values of the Boys functions: the closed form and the truncated series for small `T`, in any
  arithmetic that has the quantities they are made of, and a reference value in machine
  arithmetic.
-/
import GaussianIntegrals.Boys.ClosedForm
import GaussianIntegrals.Number.Binary

namespace GaussianIntegrals.Boys

/-- Why a closed form has no value. -/
inductive ValueError where
  /-- A power of zero with a negative exponent. -/
  | zeroDivision
  /-- A coefficient or a power is too large. -/
  | tooLarge
  deriving DecidableEq, Repr

/-- Pi. -/
def pi : Float := 3.141592653589793

/-- An infinite value. -/
def infinite : Float := 1.0 / 0.0

/-- `sum` plus the terms after `term` of the series `Σ t ^ i / (a (a + 1) … (a + i))`, of
which `i` is the next index. Terms are added, at most `count`, as long as they change the
sum. -/
def addRising (a t : Float) : (count : Nat) → (i term sum : Float) → Float
  | 0, _, _, sum => sum
  | count + 1, i, term, sum =>
    let next := term * t / (a + i)
    let sum' := sum + next
    if sum' == sum then sum else addRising a t count (i + 1) next sum'

/-- The terms that a sum may need. -/
def termLimit : Nat := 20000

/-- `Σ t ^ i / (a (a + 1) … (a + i))`. -/
def risingSum (a t : Float) : Float := addRising a t termLimit 1 (1 / a) (1 / a)

/-- `sum` plus the terms of the series `Σ t ^ i / (i! (a + i))` from index `i` on; `power` is
`t ^ (i - 1) / (i - 1)!`. -/
def addGrowing (a t : Float) : (count : Nat) → (i power sum : Float) → Float
  | 0, _, _, sum => sum
  | count + 1, i, power, sum =>
    let next := power * t / i
    let sum' := sum + next / (a + i)
    if sum' == sum then sum else addGrowing a t count (i + 1) next sum'

/-- The gamma function at `n + 1/2`, from `√π` at `n = 0`. -/
def gammaHalf (n : Int) : Float :=
  if 171 < n then infinite
  else if n < -200 then 0
  else if 0 ≤ n then
    (List.range n.toNat).foldl (fun g k => g * (Float.ofNat k + 0.5)) (Float.sqrt pi)
  else
    (List.range n.natAbs).foldl (fun g k => g / (-0.5 - Float.ofNat k)) (Float.sqrt pi)

/-- The value of the Boys function of an order at `t`. Large arguments use the whole integral
from 0 to infinity, of which the part beyond 1 is negligible. -/
def reference (n : Int) (t : Float) : Float :=
  let a := Float.ofInt n + 0.5
  if t.isNaN then t
  else if t < 0 then addGrowing a (-t) termLimit 1 1 (1 / a) / 2
  else if t < 600 then Float.exp (-t) * risingSum a t / 2
  else gammaHalf n / (2 * Float.pow t a)

/-- The error function at the square root of `t`. -/
def erfSqrt (t : Float) : Float :=
  if t < 40 then 2 * Float.sqrt (t / pi) * reference 0 t else if t.isNaN then t else 1

/-- A power as machine arithmetic has it: zero has no negative power, and a finite number no
infinite one. -/
def guardedPower (t e : Float) : Except ValueError Float :=
  if t == 0 && e < 0 then .error .zeroDivision
  else
    let p := Float.pow t e
    if p.isInf && t.isFinite && e.isFinite then .error .tooLarge else .ok p

/-- A rational number in machine arithmetic. -/
def machine (v : Rat) : Except ValueError Float :=
  match Number.floatOfRat? v with
  | some x => .ok x
  | none => .error .tooLarge

/-! ## Formulas in any arithmetic -/

/-- What the values of the formulas at an argument `T` are made of, in some arithmetic. -/
structure Quantities (K : Type) where
  zero : K
  half : K
  add : K → K → K
  sub : K → K → K
  mul : K → K → K
  ofRat : Rat → Except ValueError K
  /-- `T ^ k`. -/
  power : (k : Int) → Except ValueError K
  /-- `exp (-T)`. -/
  exp : K
  /-- `√π / (d T^(n + 1/2)) · erf √T`. -/
  erfTerm : (d : K) → (n : Int) → Except ValueError K
  /-- `Γ(n + 1/2) p / Γ(n + i + 3/2)`. -/
  gammaTerm : (n : Int) → (i : Nat) → (p : K) → K

section

variable {K : Type} (Q : Quantities K)

/-- A sum with the terms `c_k T ^ -(k + 1)` of a tail, from `k` on. -/
def tailSum : (k : Nat) → (sum : K) → List Rat → Except ValueError K
  | _, sum, [] => .ok sum
  | k, sum, c :: cs => do
    let x ← Q.ofRat c
    let p ← Q.power (-(k + 1 : Nat))
    tailSum (k + 1) (Q.add sum (Q.mul x p)) cs

/-- The value of a closed form. -/
def ClosedForm.valueIn (f : ClosedForm) : Except ValueError K := do
  let denominator ← Q.ofRat f.erfDenominator
  let lead ← Q.erfTerm denominator f.order
  let tail ← tailSum Q 0 Q.zero f.tail
  let scale ← Q.ofRat f.scale
  .ok (Q.mul scale (Q.sub lead (Q.mul Q.exp tail)))

/-- A sum with the next term of the series, that of index `i`. -/
def addSeriesTerm (n : Int) (sum : K) (i : Nat) : Except ValueError K := do
  let p ← Q.power i
  .ok (Q.add sum (Q.gammaTerm n i p))

/-- The truncated series of order `n`. -/
def seriesIn (n : Int) (terms : Int) : Except ValueError K := do
  let total ← (List.range terms.toNat).foldlM (addSeriesTerm Q n) Q.zero
  .ok (Q.mul (Q.mul Q.half Q.exp) total)

end

/-- The quantities in machine arithmetic. -/
def machineQuantities (t : Float) : Quantities Float where
  zero := 0
  half := 0.5
  add x y := x + y
  sub x y := x - y
  mul x y := x * y
  ofRat := machine
  power k := guardedPower t (Float.ofInt k)
  exp := Float.exp (-t)
  erfTerm d n := do
    let power ← guardedPower t (Float.ofInt n + 0.5)
    .ok (Float.sqrt pi / (d * power) * erfSqrt t)
  gammaTerm n i p := gammaHalf n * p / gammaHalf (n + i + 1)

/-- The product `(n + 1/2) (n + 3/2) … (n + i - 1/2)`. -/
def halfRising (n : Int) : (i : Nat) → Rat
  | 0 => 1
  | i + 1 => halfRising n i * (n + i + 1 / 2)

/-- The quantities in exact arithmetic at a rational `t`, where `g` stands for the value of
`√π erf √t / √t` and `e` for that of `exp (-t)`. Quotients of gamma values are products, from
`Γ(x + 1) = x Γ(x)`. -/
def exactQuantities (t g e : Rat) : Quantities Rat where
  zero := 0
  half := 1 / 2
  add x y := x + y
  sub x y := x - y
  mul x y := x * y
  ofRat := .ok
  power k := if t = 0 ∧ k < 0 then .error .zeroDivision else .ok (Rat.zpow t k)
  exp := e
  erfTerm d n := if t = 0 then .error .zeroDivision else .ok (g / (d * Rat.zpow t n))
  gammaTerm n i p := p / halfRising n (i + 1)

/-- The value of a closed form at `t`. -/
def ClosedForm.value (f : ClosedForm) (t : Float) : Except ValueError Float :=
  f.valueIn (machineQuantities t)

/-- The truncated series at `t`. -/
def seriesValue (n : Int) (t : Float) (terms : Int) : Except ValueError Float :=
  seriesIn (machineQuantities t) n terms

end GaussianIntegrals.Boys
