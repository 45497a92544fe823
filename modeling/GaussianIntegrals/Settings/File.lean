/-
  Settings files: lines `key = value`, blank lines, and comment lines that begin with `#`.
  Keys are read in any case, the last value of a key counts, and the settings are checked
  when all lines have been read.
-/
import GaussianIntegrals.Settings.Basic
import GaussianIntegrals.Text.Integer
import GaussianIntegrals.Text.Split

namespace GaussianIntegrals

/-- Why a settings file is refused. -/
inductive SettingsFileError where
  /-- A line has no equals sign. -/
  | line (text : String)
  /-- No setting has this key. -/
  | key (name : String)
  /-- A value is neither yes nor no. -/
  | boolean (text : String)
  /-- A value is no integer. -/
  | integer (cause : Text.IntegerError)
  /-- The settings of the file are not valid. -/
  | settings (cause : SettingsError)
  deriving DecidableEq, Repr

/-- The wording of a settings file error. -/
def SettingsFileError.message : SettingsFileError → String
  | .line text => s!"Invalid configuration line: {text}"
  | .key name => s!"Unknown configuration key: {name}"
  | .boolean text => s!"Invalid boolean value: {text}"
  | .integer cause => cause.message
  | .settings cause => cause.message

namespace SettingsFile

/-- The text with every line end, `\r\n` and `\r` too, as a newline. -/
def plainLineEnds : List Char → List Char
  | [] => []
  | '\r' :: '\n' :: cs => '\n' :: plainLineEnds cs
  | '\r' :: cs => '\n' :: plainLineEnds cs
  | c :: cs => c :: plainLineEnds cs

/-- The lines of a text without the blanks at their ends. -/
def lines (text : String) : List (List Char) :=
  (Text.splitAt '\n' (plainLineEnds text.toList)).map Text.strip

/-- A line that sets nothing: blank or a comment. -/
def isSilent : List Char → Bool
  | [] => true
  | c :: _ => c = '#'

/-- The names in a list with commas, in lower case, without empty ones. -/
def names (value : List Char) : List String :=
  let parts := ((Text.splitAt ',' value).map Text.strip).filter (· ≠ [])
  parts.map fun n => String.ofList (Text.lower n)

/-- A yes or no in any case. -/
def boolean (value : List Char) : Except SettingsFileError Bool :=
  let word := String.ofList (Text.lower value)
  if ["true", "yes", "on", "1"].contains word then .ok true
  else if ["false", "no", "off", "0"].contains word then .ok false
  else .error (.boolean (String.ofList value))

/-- An integer value. -/
def integer (value : List Char) : Except SettingsFileError Int :=
  (Text.readInt (String.ofList value)).mapError .integer

/-- A change with one more setting, by its key in lower case. -/
def set (c : SettingsChange) (key : String) (value : List Char) :
    Except SettingsFileError SettingsChange :=
  match key with
  | "output_dir" => .ok { c with outputDir := String.ofList value }
  | "families" => .ok { c with families := names value }
  | "boys" => do .ok { c with boys := ← boolean value }
  | "line_width" => do .ok { c with lineWidth := ← integer value }
  | "continuation" => .ok { c with continuation := String.ofList value }
  | "workers" => do .ok { c with workers := ← integer value }
  | "log_dir" => .ok { c with logDir := String.ofList value }
  | "log_level" => .ok { c with logLevel := String.ofList value }
  | _ => .error (.key key)

/-- A change with what a line sets. The first equals sign of the line separates key and
value. -/
def readLine (c : SettingsChange) (line : List Char) : Except SettingsFileError SettingsChange :=
  if isSilent line then .ok c
  else
    match line.dropWhile (· != '=') with
    | [] => .error (.line (String.ofList line))
    | _ :: value =>
      let key := Text.lower (Text.strip (line.takeWhile (· != '=')))
      set c (String.ofList key) (Text.strip value)

/-- The change that a text describes, the lines read in order. -/
def readChange (text : String) : Except SettingsFileError SettingsChange :=
  (lines text).foldlM readLine {}

/-- The settings that a text describes. -/
def read (text : String) : Except SettingsFileError Settings := do
  (Settings.ofChange (← readChange text)).mapError .settings

end SettingsFile

end GaussianIntegrals
