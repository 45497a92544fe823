/-
  Texts of field values under a format specification.
-/
import GaussianIntegrals.Number.Binary
import GaussianIntegrals.Number.Decimal
import GaussianIntegrals.Template.Reflection

namespace GaussianIntegrals.Template

/-- A number in the parts that padding and grouping tell apart. -/
structure NumberParts where
  sign : List Char
  /-- The mark of a base. -/
  lead : List Char
  digits : List Char
  /-- Point, places, exponent and the like. -/
  rest : List Char
  deriving DecidableEq, Repr

/-- Digits in groups counted from the right. -/
def grouped (mark : Char) (size : Nat) (digits : List Char) : List Char :=
  (digits.zipIdx.map fun (c, i) =>
    if 0 < i ∧ (digits.length - i) % size = 0 then [mark, c] else [c]).flatten

/-- The least count of digits, at least `count`, that fills a width when grouped. -/
def filledCount (size count width : Nat) : Nat :=
  max count ((List.range (width + 1)).find? (fun n => width ≤ n + (n - 1) / size) |>.getD count)

/-- The size of the groups of a presentation. -/
def groupSize (presentation : Char) : Nat :=
  if ['b', 'o', 'x', 'X'].contains presentation then 4 else 3

/-- Padding to a width at the left, at the right, and between sign and digits. -/
def Spec.padding (s : Spec) (length : Nat) : List Char × List Char × List Char :=
  let n := s.width - length
  let fill := fun k => List.replicate k s.fill
  match s.align with
  | .left => ([], [], fill n)
  | .right => (fill n, [], [])
  | .centre => (fill (n / 2), [], fill (n - n / 2))
  | .afterSign => ([], fill n, [])

/-- A number in its width. Zeros that fill it after the sign are grouped like digits. -/
def Spec.number (s : Spec) (presentation : Char) (p : NumberParts) : List Char :=
  let others := p.sign.length + p.lead.length + p.rest.length
  let least := if s.fill = '0' ∧ s.align = .afterSign then s.width - others else 0
  let digits := match s.grouping with
    | none => Number.padZeros least p.digits
    | some mark =>
      let size := groupSize presentation
      grouped mark size (Number.padZeros (filledCount size p.digits.length least) p.digits)
  let (left, inner, right) := s.padding (others + digits.length)
  left ++ p.sign ++ p.lead ++ inner ++ digits ++ p.rest ++ right

/-- The sign that is written before a number. -/
def Spec.signOf (s : Spec) (negative : Bool) : List Char :=
  if negative then ['-']
  else
    match s.sign with
    | some '+' => ['+']
    | some ' ' => [' ']
    | _ => []

/-- The base of an integer presentation. -/
def baseOf (presentation : Char) : Nat :=
  match presentation with
  | 'b' => 2
  | 'o' => 8
  | 'x' | 'X' => 16
  | _ => 10

/-- The characters of an integer. -/
def integerChars (n : Int) : Except TemplateError (List Char) :=
  ((Text.writeInt n).map String.toList).mapError .integer

/-- The digits of an integer in the base of a presentation; only decimal ones are limited. -/
def digitsOf (presentation : Char) (n : Int) : Except TemplateError (List Char) :=
  let upper := fun cs : List Char => if presentation = 'X' then cs.map Char.toUpper else cs
  if baseOf presentation = 10 then integerChars n.natAbs
  else .ok (upper (Nat.toDigits (baseOf presentation) n.natAbs))

/-- An integer in a base. -/
def Spec.integer (s : Spec) (presentation : Char) (n : Int) : Except TemplateError (List Char) := do
  let lead := if s.alternate ∧ baseOf presentation ≠ 10 then ['0', presentation] else []
  let digits ← digitsOf presentation n
  .ok (s.number presentation ⟨s.signOf (n < 0), lead, digits, []⟩)

/-- An integer as a character. -/
def Spec.character (s : Spec) (n : Int) : Except TemplateError (List Char) :=
  if s.sign.isSome then .error (.notAllowed "Sign not allowed with integer format specifier 'c'")
  else if s.alternate then
    .error (.notAllowed "Alternate form (#) not allowed with integer format specifier 'c'")
  else if n < 0 ∨ 0x110000 ≤ n then .error .outOfRange
  else .ok (s.number 'c' ⟨[], [], [], [Char.ofNat n.toNat]⟩)

/-- An integer as a binary number with places or an exponent. -/
def Spec.real (s : Spec) (presentation : Char) (n : Int) : Except TemplateError (List Char) :=
  let percent := presentation = '%'
  match Number.Binary.nearest? (if percent then n.natAbs * 100 else n.natAbs) 1 with
  | none => .error .outOfRange
  | some b =>
    let (num, den) := b.toQuotient
    let places := s.precision.getD 6
    let mark := if presentation.isUpper then 'E' else 'e'
    let text :=
      if presentation = 'e' ∨ presentation = 'E' then
        Number.exponentForm mark s.alternate places num den
      else if presentation = 'g' ∨ presentation = 'G' then
        Number.GeneralForm.chars ⟨max places 1, -4, mark, s.alternate⟩ num den
      else Number.fixedChars s.alternate places num den
    let digits := text.takeWhile Char.isDigit
    let rest := text.drop digits.length ++ (if percent then ['%'] else [])
    .ok (s.number presentation ⟨s.signOf (n < 0), [], digits, rest⟩)

/-- A text cut to the precision and padded to the width. -/
def Spec.text (s : Spec) (cs : List Char) : Except TemplateError (List Char) :=
  match s.sign with
  | some ' ' => .error (.notAllowed "Space not allowed in string format specifier")
  | some _ => .error (.notAllowed "Sign not allowed in string format specifier")
  | none =>
    if s.coerceZero then
      .error (.notAllowed "Negative zero coercion (z) not allowed in string format specifier")
    else if s.alternate then
      .error (.notAllowed "Alternate form (#) not allowed in string format specifier")
    else if s.align = .afterSign then
      .error (.notAllowed "'=' alignment not allowed in string format specifier")
    else
      let cut := match s.precision with
        | some n => cs.take n
        | none => cs
      let (left, _, right) := s.padding cut.length
      .ok (left ++ cut ++ right)

/-- An integer under a specification. -/
def Spec.formatInteger (s : Spec) (n : Int) : Except TemplateError (List Char) :=
  let presentation := s.presentation.getD 'd'
  if ['b', 'c', 'd', 'o', 'x', 'X', 'n'].contains presentation then
    if s.precision.isSome then
      .error (.notAllowed "Precision not allowed in integer format specifier")
    else if s.coerceZero then
      .error (.notAllowed "Negative zero coercion (z) not allowed in integer format specifier")
    else if presentation = 'c' then s.character n
    else s.integer presentation n
  else if ['e', 'E', 'f', 'F', 'g', 'G', '%'].contains presentation then s.real presentation n
  else .error (.presentation presentation (Value.integer n).typeName)

/-- A text under a specification. -/
def Spec.formatText (s : Spec) (t : String) : Except TemplateError (List Char) :=
  let presentation := s.presentation.getD 's'
  if presentation = 's' then s.text t.toList
  else .error (.presentation presentation (Value.text t).typeName)

/-- A value under a specification; without one it is shown as it is. -/
def Value.format (r : Reflection) (v : Value) (spec : List Char) :
    Except TemplateError (List Char) :=
  match v with
  | .object name => r.format name spec
  | .text t => if spec.isEmpty then .ok t.toList else do (← Spec.read v spec).formatText t
  | .integer n => if spec.isEmpty then integerChars n else do (← Spec.read v spec).formatInteger n

end GaussianIntegrals.Template
