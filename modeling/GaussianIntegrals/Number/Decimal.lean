/-
  Decimal texts of numbers: a fixed count of significant digits, a fixed count of places,
  and the general form that chooses between positional and exponent notation. All digits
  come from exact rounding of a quotient, ties to even.
-/
import GaussianIntegrals.Number.Rounding

namespace GaussianIntegrals.Number

/-- `p` significant digits `10 ^ (p - 1) ≤ digits < 10 ^ p` of a number near
`digits · 10 ^ (exponent - p + 1)`; a number that is zero has no digit. -/
structure Significant where
  digits : Nat
  exponent : Int
  deriving DecidableEq, Repr

/-- The digits of a natural number, most significant first. -/
def digitChars (n : Nat) : List Char := Nat.toDigits 10 n

/-- The exponent of the first digit of `n / d`. -/
def leadingExponent (n d : Nat) : Int :=
  let k : Int := (digitChars n).length - (digitChars d).length
  let (p, q) := powQuotient 10 k
  if n * q < d * p then k - 1 else k

/-- `n / d` to `p` significant digits. -/
def Significant.round (p n d : Nat) : Significant :=
  if n = 0 then ⟨0, 0⟩
  else
    let k := leadingExponent n d
    let m := roundAt 10 n d (k - (p - 1))
    if m = Nat.pow 10 p then ⟨Nat.pow 10 (p - 1), k + 1⟩ else ⟨m, k⟩

/-- Digits with leading zeros up to a width. -/
def padZeros (width : Nat) (cs : List Char) : List Char :=
  List.replicate (width - cs.length) '0' ++ cs

/-- The text without the zeros at its end. -/
def dropZeros (cs : List Char) : List Char := (cs.reverse.dropWhile (· = '0')).reverse

/-- A whole part and places, with a point only if there are places or it is asked for. -/
def withPoint (keep : Bool) (whole places : List Char) : List Char :=
  if places.isEmpty && !keep then whole else whole ++ '.' :: places

/-- An exponent: a mark, a sign and at least two digits. -/
def exponentChars (mark : Char) (e : Int) : List Char :=
  mark :: (if e < 0 then '-' else '+') :: padZeros 2 (digitChars e.natAbs)

/-- `n / d` with `places` digits after the point. -/
def fixedChars (keep : Bool) (places n d : Nat) : List Char :=
  let cs := padZeros (places + 1) (digitChars (roundAt 10 n d (-(places : Int))))
  withPoint keep (cs.take (cs.length - places)) (cs.drop (cs.length - places))

/-- `n / d` in exponent notation with `places` digits after the point. -/
def exponentForm (mark : Char) (keep : Bool) (places n d : Nat) : List Char :=
  let s := Significant.round (places + 1) n d
  let cs := padZeros (places + 1) (digitChars s.digits)
  withPoint keep (cs.take 1) (cs.drop 1) ++ exponentChars mark s.exponent

/-- How the general form is written. -/
structure GeneralForm where
  /-- Significant digits, at least one. -/
  significant : Nat
  /-- The least exponent that is written positionally. -/
  leastPositional : Int
  /-- The mark before an exponent. -/
  mark : Char
  /-- Zeros at the end of the places, and the point before none, are kept. -/
  keepZeros : Bool
  deriving DecidableEq, Repr

/-- Significant digits in general form: positional when the exponent lies between the least
positional one and the count of digits, in exponent notation otherwise. -/
def GeneralForm.write (f : GeneralForm) (s : Significant) : List Char :=
  let cs := padZeros f.significant (digitChars s.digits)
  let trim := fun places => if f.keepZeros then places else dropZeros places
  if s.exponent < f.leastPositional ∨ (f.significant : Int) ≤ s.exponent then
    withPoint f.keepZeros (cs.take 1) (trim (cs.drop 1)) ++ exponentChars f.mark s.exponent
  else if s.exponent < 0 then
    let zeros := List.replicate (s.exponent.natAbs - 1) '0'
    withPoint f.keepZeros ['0'] (trim (zeros ++ cs))
  else
    let whole := s.exponent.natAbs + 1
    withPoint f.keepZeros (cs.take whole) (trim (cs.drop whole))

/-- `n / d` in general form. -/
def GeneralForm.chars (f : GeneralForm) (n d : Nat) : List Char :=
  f.write (Significant.round f.significant n d)

end GaussianIntegrals.Number
