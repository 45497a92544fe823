/-
  Integers as decimal text. Reading takes a sign, digits of any script with single
  underscores between them and blanks around; both directions are limited to 4300 digits.
-/
import GaussianIntegrals.Text.Blank
import GaussianIntegrals.Text.Digit
import GaussianIntegrals.Text.Quoted

namespace GaussianIntegrals.Text

/-- The longest decimal text that is read or written. -/
def digitLimit : Nat := 4300

/-- Why a text is no integer, or an integer has no text. -/
inductive IntegerError where
  /-- The text is not a numeral. -/
  | notNumeral (text : String)
  /-- The numeral has too many digits to be read. -/
  | tooLongToRead (digits : Nat)
  /-- The integer has too many digits to be written. -/
  | tooLongToWrite
  deriving DecidableEq, Repr

/-- The wording of an integer error; a bad numeral is quoted, cut at 200 characters. -/
def IntegerError.message : IntegerError → String
  | .notNumeral text =>
    "invalid literal for int() with base 10: " ++ String.ofList ((quote text).toList.take 200)
  | .tooLongToRead digits =>
    s!"Exceeds the limit ({digitLimit} digits) for integer string conversion: value has {digits} digits; use sys.set_int_max_str_digits() to increase the limit"
  | .tooLongToWrite =>
    s!"Exceeds the limit ({digitLimit} digits) for integer string conversion; use sys.set_int_max_str_digits() to increase the limit"

/-- The decimal text of an integer, if it is not too long. All texts write their integers by this
function. -/
def writeInt (v : Int) : Except IntegerError String :=
  if digitLimit < (toString v.natAbs).length then .error .tooLongToWrite else .ok (toString v)

/-- A message that shows an integer; of one that is too long only that is said. -/
def showInt (v : Int) (message : String → String) : String :=
  match writeInt v with
  | .ok text => message text
  | .error cause => cause.message

/-- Blanks around a numeral; in a text of ASCII alone the separators 28 to 31 are not. -/
def isNumeralBlank (ascii : Bool) (c : Char) : Bool :=
  if ascii || c.toNat < 127 then (9 ≤ c.toNat && c.toNat ≤ 13) || c = ' ' else isBlank c

/-- The digits of a numeral, most significant first, with single underscores between them. -/
def readDigits : List Char → Option (List Nat)
  | [] => none
  | [c] => (decimalDigit? c).map ([·])
  | c :: '_' :: rest =>
    match decimalDigit? c, readDigits rest with
    | some d, some ds => some (d :: ds)
    | _, _ => none
  | c :: rest =>
    match decimalDigit? c, readDigits rest with
    | some d, some ds => some (d :: ds)
    | _, _ => none

/-- The number that a list of decimal digits denotes. -/
def ofDigits (ds : List Nat) : Nat := ds.foldl (fun n d => 10 * n + d) 0

/-- The characters that could belong to the digits of a numeral. -/
def numeralRun (cs : List Char) : List Char :=
  cs.takeWhile fun c => c = '_' || (decimalDigit? c).isSome

/-- Reads an integer. A run of digits that is too long is reported before what follows it. -/
def readInt (s : String) : Except IntegerError Int :=
  let cs := s.toList
  let blank := isNumeralBlank (cs.all (·.toNat < 128))
  let body := ((cs.dropWhile blank).reverse.dropWhile blank).reverse
  let (negative, body) :=
    match body with
    | '-' :: rest => (true, rest)
    | '+' :: rest => (false, rest)
    | rest => (false, rest)
  match readDigits (numeralRun body) with
  | none => .error (.notNumeral s)
  | some ds =>
    if digitLimit < ds.length then .error (.tooLongToRead ds.length)
    else if (numeralRun body).length < body.length then .error (.notNumeral s)
    else .ok (if negative then -(ofDigits ds : Int) else ofDigits ds)

end GaussianIntegrals.Text
