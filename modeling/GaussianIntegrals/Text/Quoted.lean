/-
  Quoted texts, as messages show a name or a path: single quotes unless the text holds one
  and no double quote, a backslash before a backslash or the quote in use, short escapes for
  tabulator and line ends, and numeric escapes for what is not printable.
-/
import GaussianIntegrals.Text.Printable

namespace GaussianIntegrals.Text

/-- One hexadecimal digit, in lower case. -/
def hexDigit (n : Nat) : Char := Nat.digitChar (n % 16)

/-- The last `width` hexadecimal digits of `n`. -/
def hexDigits : (width : Nat) → Nat → List Char
  | 0, _ => []
  | width + 1, n => hexDigits width (n / 16) ++ [hexDigit n]

/-- The numeric escape of a code point, as short as its size allows. -/
def numericEscape (n : Nat) : List Char :=
  if n < 0x100 then '\\' :: 'x' :: hexDigits 2 n
  else if n < 0x10000 then '\\' :: 'u' :: hexDigits 4 n
  else '\\' :: 'U' :: hexDigits 8 n

/-- The quote to use: double only if the text holds a single one and no double one. -/
def quoteFor (cs : List Char) : Char :=
  if cs.contains '\'' && !cs.contains '"' then '"' else '\''

/-- One character inside quotes. -/
def quoteChar (shown : Char → Bool) (quote c : Char) : List Char :=
  if c = quote ∨ c = '\\' then ['\\', c]
  else if c = '\t' then ['\\', 't']
  else if c = '\n' then ['\\', 'n']
  else if c = '\r' then ['\\', 'r']
  else if shown c then [c]
  else numericEscape c.toNat

/-- The quoted form of a text, with the given class of characters shown as they are. -/
def quoteWith (shown : Char → Bool) (s : String) : String :=
  let cs := s.toList
  let q := quoteFor cs
  String.ofList (q :: (cs.flatMap (quoteChar shown q) ++ [q]))

/-- The quoted form of a text. -/
def quote (s : String) : String := quoteWith isPrintable s

/-- The quoted form in which every character beyond ASCII is escaped. -/
def quoteAscii (s : String) : String := quoteWith (fun c => 32 ≤ c.toNat && c.toNat < 127) s

/-- A list of names: quoted, separated by a comma and a space, in brackets. -/
def quoteList (names : List String) : String :=
  "[" ++ ", ".intercalate (names.map quote) ++ "]"

end GaussianIntegrals.Text
