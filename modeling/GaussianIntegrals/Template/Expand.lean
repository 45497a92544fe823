/-
  Templates: texts with fields in braces, each a name, an optional conversion and an
  optional format specification that may hold fields itself. Doubled braces stand for single
  ones.
-/
import GaussianIntegrals.Index
import GaussianIntegrals.Template.Format
import GaussianIntegrals.Text.Quoted

namespace GaussianIntegrals.Template

/-- A character in an error text: itself if it is a visible ASCII character, else its code. -/
def markText (c : Char) : String :=
  if 32 < c.toNat ∧ c.toNat < 128 then String.ofList [c]
  else "\\x" ++ String.ofList (Nat.toDigits 16 c.toNat)

/-- The wording of a template error; a missing name is shown quoted. -/
def TemplateError.message : TemplateError → String
  | .strayBrace brace => "Single '" ++ String.ofList [brace] ++ "' encountered in format string"
  | .unclosedField => "expected '\x7d' before end of string"
  | .braceInName => "unexpected '\x7b' in field name"
  | .unclosedSpec => "unmatched '\x7b' in format spec"
  | .afterConversion => "expected ':' after conversion specifier"
  | .conversion mark => "Unknown conversion specifier " ++ markText mark
  | .missing name => Text.quote name
  | .positional => "Replacement index 0 out of range for positional args tuple"
  | .tooManyDigits => "Too many decimal digits in format string"
  | .emptyPart => "Empty attribute in format string"
  | .unclosedIndex => "Missing ']' in format string"
  | .afterIndex => "Only '.' or '[' may follow ']' in format field specifier"
  | .noPart => "no such attribute"
  | .notIndexable => "string indices must be integers"
  | .indexOutside => "string index out of range"
  | .tooDeep => "Max string recursion exceeded"
  | .badSpec spec typeName => s!"Invalid format specifier '{spec}' for object of type '{typeName}'"
  | .missingPrecision => "Format specifier missing precision"
  | .twoGroupings => "Cannot specify both ',' and '_'."
  | .grouping mark kind => s!"Cannot specify '{markText mark}' with '{markText kind}'."
  | .presentation mark typeName =>
    s!"Unknown format code '{markText mark}' for object of type '{typeName}'"
  | .notAllowed what => what
  | .outOfRange => "number out of range"
  | .noFormat => "unsupported format string"
  | .integer cause => cause.message

/-- A field as it is written. -/
structure Field where
  name : List Char
  conversion : Option Char
  spec : List Char
  /-- The specification holds braces, and so fields. -/
  nested : Bool
  deriving DecidableEq, Repr

/-- The length of a field name. Brackets in it are passed over as a whole. -/
def nameLength (inBrackets : Bool) : List Char → Except TemplateError Nat
  | [] => .error .unclosedField
  | c :: rest =>
    if inBrackets then (nameLength (c != ']') rest).map (· + 1)
    else if c = '\x7b' then .error .braceInName
    else if c = '\x7d' ∨ c = ':' ∨ c = '!' then .ok 0
    else (nameLength (c = '[') rest).map (· + 1)

/-- The length of a specification up to the brace that closes its field, `depth` further
fields being open. -/
def specLength : (depth : Nat) → List Char → Except TemplateError Nat
  | _, [] => .error .unclosedSpec
  | depth, c :: rest =>
    if c = '\x7b' then (specLength (depth + 1) rest).map (· + 1)
    else if c = '\x7d' then
      match depth with
      | 0 => .ok 0
      | depth + 1 => (specLength depth rest).map (· + 1)
    else (specLength depth rest).map (· + 1)

/-- The field after an opening brace, and its length with the closing brace. -/
def readField (cs : List Char) : Except TemplateError (Field × Nat) := do
  let n ← nameLength false cs
  let name := cs.take n
  let specFrom := fun (conversion : Option Char) (start : Nat) => do
    let k ← specLength 0 (cs.drop start)
    let spec := (cs.drop start).take k
    .ok (⟨name, conversion, spec, spec.contains '\x7b'⟩, start + k + 1)
  match cs.drop n with
  | [] => .ok (⟨name, none, [], false⟩, n + 1)
  | c :: rest =>
    if c = ':' then specFrom none (n + 1)
    else if c = '!' then
      match rest with
      | mark :: d :: _ =>
        if d = ':' then specFrom (some mark) (n + 3)
        else if d = '\x7d' then .ok (⟨name, some mark, [], false⟩, n + 3)
        else .error .afterConversion
      | _ => .error .unclosedSpec
    else .ok (⟨name, none, [], false⟩, n + 1)

/-- An integer knows its real and imaginary part, and itself as a fraction. -/
def integerPart? (n : Int) (name : List Char) : Option Value :=
  if name = "real".toList ∨ name = "numerator".toList then some (.integer n)
  else if name = "imag".toList then some (.integer 0)
  else if name = "denominator".toList then some (.integer 1)
  else none

/-- The index that a name in brackets spells, if it is a number. -/
def indexOf (name : List Char) : Except TemplateError (Option Nat) := do
  match ← readNumber name with
  | (some i, []) => .ok (some i)
  | _ => .ok none

/-- The character of a text at an index. -/
def characterAt (s : String) : (index : Option Nat) → Except TemplateError Value
  | none => .error .notIndexable
  | some i =>
    match s.toList[i]? with
    | some c => .ok (.text (String.ofList [c]))
    | none => .error .indexOutside

/-- A part of a value. Texts are indexed by position; attributes other than the parts of a number
are known to the reflection. -/
def Value.part (r : Reflection) (v : Value) : Part → Except TemplateError Value
  | .named [] => .error .emptyPart
  | .indexed [] => .error .emptyPart
  | .named name =>
    match v with
    | .integer n => (integerPart? n name).elim (r.part v (.named name)) .ok
    | _ => r.part v (.named name)
  | .indexed name => do
    let index ← indexOf name
    match v with
    | .text s => characterAt s index
    | .integer _ => .error .notIndexable
    | .object _ => r.part v (.indexed name)

/-- The value that a field name leads to after its first part. `remaining` bounds the number
of parts. -/
def followParts (r : Reflection) :
    (remaining : Nat) → Value → List Char → Except TemplateError Value
  | 0, v, _ => .ok v
  | _, v, [] => .ok v
  | remaining + 1, v, '.' :: rest => do
    let name := rest.takeWhile fun c => c != '.' && c != '['
    followParts r remaining (← v.part r (.named name)) (rest.drop name.length)
  | remaining + 1, v, '[' :: rest => do
    let name := rest.takeWhile (· != ']')
    if name.length = rest.length then .error .unclosedIndex
    else followParts r remaining (← v.part r (.indexed name)) (rest.drop (name.length + 1))
  | _ + 1, _, _ :: _ => .error .afterIndex

/-- The value of a field. Fields are known by name; a missing or a numeric name asks for a
positional one, and there is none. -/
def fieldValue (r : Reflection) (fields : List (String × Value)) (name : List Char) :
    Except TemplateError Value := do
  let first := name.takeWhile fun c => c != '.' && c != '['
  let rest := name.drop first.length
  match first, ← indexOf first with
  | [], _ => .error .positional
  | _, some _ => .error .positional
  | _, none =>
    match fields.lookup (String.ofList first) with
    | some v => followParts r rest.length v rest
    | none => .error (.missing (String.ofList first))

/-- The text of a value under a conversion: a text as it is or in quotes, an integer as it is. -/
def Value.converted (r : Reflection) (v : Value) (mark : Char) (quote : String → String) :
    Except TemplateError String :=
  match v with
  | .text s => .ok (quote s)
  | .integer n => (Text.writeInt n).mapError .integer
  | .object name => r.convert name mark

/-- A conversion of a value to text. -/
def Value.convert (r : Reflection) (v : Value) : Option Char → Except TemplateError Value
  | none => .ok v
  | some 's' => (v.converted r 's' id).map .text
  | some 'r' => (v.converted r 'r' Text.quote).map .text
  | some 'a' => (v.converted r 'a' Text.quoteAscii).map .text
  | some c => .error (.conversion c)

/-- Fills in a template; `expandSpec` does so for specifications that hold fields. -/
def expandWith (r : Reflection) (expandSpec : List Char → Except TemplateError (List Char))
    (fields : List (String × Value)) : List Char → Except TemplateError (List Char)
  | [] => .ok []
  | c :: rest =>
    if c = '\x7b' then
      match rest with
      | [] => .error (.strayBrace '\x7b')
      | d :: rest' =>
        if d = '\x7b' then (expandWith r expandSpec fields rest').map ('\x7b' :: ·)
        else do
          let (field, length) ← readField (d :: rest')
          let v ← (← fieldValue r fields field.name).convert r field.conversion
          let spec ← if field.nested then expandSpec field.spec else .ok field.spec
          let text ← v.format r spec
          let after ← expandWith r expandSpec fields ((d :: rest').drop length)
          .ok (text ++ after)
    else if c = '\x7d' then
      match rest with
      | d :: rest' =>
        if d = '\x7d' then (expandWith r expandSpec fields rest').map ('\x7d' :: ·)
        else .error (.strayBrace '\x7d')
      | [] => .error (.strayBrace '\x7d')
    else (expandWith r expandSpec fields rest).map (c :: ·)
termination_by cs => cs.length
decreasing_by all_goals (simp only [List.length_cons, List.length_drop]; omega)

/-- Fills in a template. Fields may stand in the specifications of fields, but no deeper. -/
def expand (r : Reflection) (fields : List (String × Value)) (template : String) :
    Except TemplateError String :=
  let inner := expandWith r (fun _ => .error .tooDeep) fields
  (expandWith r inner fields template.toList).map String.ofList

end GaussianIntegrals.Template
