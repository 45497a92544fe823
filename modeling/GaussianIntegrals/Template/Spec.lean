/-
  Format specifications of template fields: fill and alignment, sign, alternate form, width,
  grouping, precision and presentation, in this order and each of them optional.
-/
import GaussianIntegrals.Text.Digit
import GaussianIntegrals.Text.Integer

namespace GaussianIntegrals.Template

/-- What a field holds, or a part of it. -/
inductive Value where
  | text (s : String)
  | integer (n : Int)
  /-- Any other object, by a name that stands for it. -/
  | object (name : String)
  deriving DecidableEq, Repr

/-- The name of a value's type in messages. -/
def Value.typeName : Value → String
  | .text _ => "str"
  | .integer _ => "int"
  | .object _ => "type"

/-- Why a template cannot be filled in. -/
inductive TemplateError where
  /-- A brace stands alone. -/
  | strayBrace (brace : Char)
  /-- A field does not end. -/
  | unclosedField
  /-- A field name holds an opening brace. -/
  | braceInName
  /-- A format specification does not end. -/
  | unclosedSpec
  /-- Something other than a specification follows a conversion. -/
  | afterConversion
  /-- There is no such conversion. -/
  | conversion (mark : Char)
  /-- There is no field of this name. -/
  | missing (name : String)
  /-- Fields are given by name only. -/
  | positional
  /-- A number in a field name or specification is too large. -/
  | tooManyDigits
  /-- A part of a field name is empty. -/
  | emptyPart
  /-- An index in a field name does not end. -/
  | unclosedIndex
  /-- Something other than a part follows an index. -/
  | afterIndex
  /-- The value has no such part. -/
  | noPart
  /-- The value cannot be indexed this way. -/
  | notIndexable
  /-- The index selects no character. -/
  | indexOutside
  /-- Fields are nested too deep. -/
  | tooDeep
  /-- A specification has more than one presentation. -/
  | badSpec (spec typeName : String)
  /-- A precision has no digits. -/
  | missingPrecision
  /-- Both groupings are asked for. -/
  | twoGroupings
  /-- A grouping does not go with a presentation. -/
  | grouping (mark : Char) (presentation : Char)
  /-- A presentation does not go with a type. -/
  | presentation (mark : Char) (typeName : String)
  /-- Something is not allowed in a specification, as the text says. -/
  | notAllowed (what : String)
  /-- A number is no character, or too large for a binary number. -/
  | outOfRange
  /-- An object takes no specification. -/
  | noFormat
  /-- An integer has too many digits. -/
  | integer (cause : Text.IntegerError)
  deriving DecidableEq, Repr

/-- The alignment of a value in its width. -/
inductive Alignment where
  | left
  | right
  | centre
  /-- Between sign and digits. -/
  | afterSign
  deriving DecidableEq, Repr

/-- The alignment of a mark. -/
def Alignment.ofMark? : Char → Option Alignment
  | '<' => some .left
  | '>' => some .right
  | '^' => some .centre
  | '=' => some .afterSign
  | _ => none

/-- A format specification. -/
structure Spec where
  fill : Char
  align : Alignment
  sign : Option Char
  /-- Negative zero is to be avoided. -/
  coerceZero : Bool
  alternate : Bool
  width : Nat
  grouping : Option Char
  precision : Option Nat
  presentation : Option Char
  deriving DecidableEq, Repr

/-- The greatest number in a specification. -/
def greatestNumber : Nat := 9223372036854775807

/-- Leading digits as a number, and what follows them. -/
def readNumber (cs : List Char) : Except TemplateError (Option Nat × List Char) :=
  match cs.takeWhile fun c => (Text.decimalDigit? c).isSome with
  | [] => .ok (none, cs)
  | run =>
    let n := (run.filterMap Text.decimalDigit?).foldl (fun n d => 10 * n + d) 0
    if greatestNumber < n then .error .tooManyDigits else .ok (some n, cs.drop run.length)

/-- A mark at the front, if it is one of those allowed. -/
def takeMark (allowed : List Char) : List Char → Option Char × List Char
  | c :: rest => if allowed.contains c then (some c, rest) else (none, c :: rest)
  | [] => (none, [])

/-- Fill and alignment at the front. -/
def takeAlignment : List Char → Option Char × Option Alignment × List Char
  | c :: d :: rest =>
    match Alignment.ofMark? d, Alignment.ofMark? c with
    | some a, _ => (some c, some a, rest)
    | none, some a => (none, some a, d :: rest)
    | none, none => (none, none, c :: d :: rest)
  | [c] =>
    match Alignment.ofMark? c with
    | some a => (none, some a, [])
    | none => (none, none, [c])
  | [] => (none, none, [])

/-- The grouping mark at the front; a comma and an underscore exclude each other. -/
def takeGrouping (cs : List Char) : Except TemplateError (Option Char × List Char) :=
  match cs with
  | ',' :: '_' :: _ => .error .twoGroupings
  | '_' :: ',' :: _ => .error .twoGroupings
  | ',' :: rest => .ok (some ',', rest)
  | '_' :: rest => .ok (some '_', rest)
  | _ => .ok (none, cs)

/-- The precision at the front. -/
def takePrecision (cs : List Char) : Except TemplateError (Option Nat × List Char) :=
  match cs with
  | '.' :: rest => do
    match ← readNumber rest with
    | (some n, rest) => .ok (some n, rest)
    | (none, _) => .error .missingPrecision
  | _ => .ok (none, cs)

/-- A grouping goes with decimal presentations, the underscore also with the others. -/
def checkGrouping (grouping : Option Char) (presentation : Char) : Except TemplateError Unit :=
  match grouping with
  | none => .ok ()
  | some g =>
    if ['d', 'e', 'f', 'g', 'E', 'G', '%', 'F'].contains presentation then .ok ()
    else if g = '_' ∧ ['b', 'o', 'x', 'X'].contains presentation then .ok ()
    else .error (.grouping g presentation)

/-- Reads the specification of a field; numbers stand at the right by default, a leading
zero of the width fills them up after their sign. -/
def Spec.read (v : Value) (cs : List Char) : Except TemplateError Spec := do
  let numeric := match v with
    | .integer _ => true
    | _ => false
  let (fill, align, rest) := takeAlignment cs
  let (sign, rest) := takeMark [' ', '+', '-'] rest
  let (coerce, rest) := takeMark ['z'] rest
  let (alternate, rest) := takeMark ['#'] rest
  let (zero, rest) := if fill.isSome then (none, rest) else takeMark ['0'] rest
  let (width, rest) ← readNumber rest
  let (grouping, rest) ← takeGrouping rest
  let (precision, rest) ← takePrecision rest
  let presentation ← match rest with
    | [] => .ok none
    | [c] => .ok (some c)
    | _ => .error (.badSpec (String.ofList cs) v.typeName)
  checkGrouping grouping (presentation.getD (if numeric then 'd' else 's'))
  .ok {
    fill := fill.getD (if zero.isSome then '0' else ' ')
    align := align.getD
      (if numeric then (if zero.isSome then .afterSign else .right) else .left)
    sign
    coerceZero := coerce.isSome
    alternate := alternate.isSome
    width := width.getD 0
    grouping
    precision
    presentation }

end GaussianIntegrals.Template
