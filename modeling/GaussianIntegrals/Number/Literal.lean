/-
  Numeric literals of the generated code: an integer in full, any other rational number
  rounded to a binary number first and then to fifteen significant decimal digits.
-/
import GaussianIntegrals.Number.Binary
import GaussianIntegrals.Number.Decimal
import GaussianIntegrals.Text.Integer

namespace GaussianIntegrals.Number

/-- Why a number has no text. -/
inductive NumberError where
  /-- A fraction is beyond the largest binary number. -/
  | tooLarge
  /-- An integer has too many digits. -/
  | integer (cause : Text.IntegerError)
  deriving DecidableEq, Repr

/-- The wording of that error. -/
def NumberError.message : NumberError → String
  | .tooLarge => "integer division result too large for a float"
  | .integer cause => cause.message

/-- Fifteen significant digits, positional from `10 ^ -4` on, no zeros at the end. -/
def literalForm : GeneralForm := ⟨15, -4, 'e', false⟩

/-- The literal of a rational number. -/
def literal (v : Rat) : Except NumberError String :=
  if v.den = 1 then (Text.writeInt v.num).mapError .integer
  else
    match Binary.nearest? v.num.natAbs v.den with
    | none => .error .tooLarge
    | some b =>
      let (n, d) := b.toQuotient
      let cs := literalForm.chars n d
      .ok (String.ofList (if v.num < 0 then '-' :: cs else cs))

end GaussianIntegrals.Number
