/-
  The shortest decimal text of a binary number: the fewest significant digits from which the
  number is read back, and of those the nearest ones.
-/
import GaussianIntegrals.Number.Binary
import GaussianIntegrals.Number.Decimal

namespace GaussianIntegrals.Number

/-- The number is the one nearest to `digits · 10 ^ exponent`. -/
def Binary.isNearest (b : Binary) (digits : Nat) (exponent : Int) : Bool :=
  let (p, q) := powQuotient 10 exponent
  Binary.nearest? (digits * p) q == some b

/-- The digits on the grid of `10 ^ exponent` from which a number with value `n / d` is read
back: the nearer neighbour of the number, or else the farther one. -/
def Binary.onGrid? (b : Binary) (n d : Nat) (exponent : Int) : Option Nat :=
  let near := roundAt 10 n d exponent
  let (p, q) := powQuotient 10 exponent
  let below := n * q / (d * p)
  let far := if near = below then below + 1 else below
  if b.isNearest near exponent then some near
  else if b.isNearest far exponent then some far
  else none

/-- The count of digits and the digits on the first grid that serves, from `count` digits
on. -/
def Binary.fewest (b : Binary) (n d : Nat) (leading : Int) : (remaining count : Nat) → Nat × Nat
  | 0, count => (count, roundAt 10 n d (leading - (count - 1)))
  | remaining + 1, count =>
    match b.onGrid? n d (leading - (count - 1)) with
    | some digits => (count, digits)
    | none => b.fewest n d leading remaining (count + 1)

/-- The shortest text of a number below one; seventeen digits always serve. -/
def Binary.shortestText (b : Binary) : String :=
  if b.significand = 0 then "0.0"
  else
    let (n, d) := b.toQuotient
    let leading := leadingExponent n d
    let (count, digits) := b.fewest n d leading 16 1
    String.ofList (GeneralForm.write ⟨count, -4, 'e', false⟩ ⟨digits, leading⟩)

end GaussianIntegrals.Number
