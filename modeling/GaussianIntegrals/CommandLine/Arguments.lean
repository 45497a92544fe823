/-
  The arguments of the command line: flags, some with a value, and family names. Every word
  is read by itself first; then the words are taken from left to right, and the first
  mistake, or a request for help, ends the reading.
-/
import GaussianIntegrals.Text.Digit
import GaussianIntegrals.Text.Integer
import GaussianIntegrals.Text.Quoted

namespace GaussianIntegrals.CommandLine

/-- The flags. -/
inductive Flag where
  | help
  | outputDir
  | config
  | workers
  | noBoys
  deriving DecidableEq, Repr

namespace Flag

/-- The flags in the order in which they are listed. -/
def all : List Flag := [.help, .outputDir, .config, .workers, .noBoys]

/-- The spelling of a flag; `-h` is a second one for help. -/
def spelling : Flag → String
  | .help => "--help"
  | .outputDir => "--output-dir"
  | .config => "--config"
  | .workers => "--workers"
  | .noBoys => "--no-boys"

/-- The name of a flag in messages. -/
def label : Flag → String
  | .help => "-h/--help"
  | f => f.spelling

/-- The flags whose spelling begins with a text. -/
def matching (text : List Char) : List Flag :=
  all.filter fun f => text.isPrefixOf f.spelling.toList

end Flag

/-- A mistake in the arguments. -/
inductive UsageError where
  /-- A shortened flag stands for several. -/
  | ambiguous (word : String) (flags : List Flag)
  /-- The value of a flag is missing. -/
  | missingValue (flag : Flag)
  /-- The value of a flag is no integer. -/
  | notInteger (flag : Flag) (text : String)
  /-- A flag without a value is given one. -/
  | unwantedValue (flag : Flag) (text : String)
  /-- Some words are no arguments. -/
  | unrecognized (words : List String)
  deriving DecidableEq, Repr

/-- The wording of a usage error. -/
def UsageError.message : UsageError → String
  | .ambiguous word flags =>
    s!"ambiguous option: {word} could match " ++ ", ".intercalate (flags.map Flag.spelling)
  | .missingValue flag => s!"argument {flag.label}: expected one argument"
  | .notInteger flag text => s!"argument {flag.label}: invalid int value: {Text.quote text}"
  | .unwantedValue flag text =>
    s!"argument {flag.label}: ignored explicit argument {Text.quote text}"
  | .unrecognized words => "unrecognized arguments: " ++ " ".intercalate words

/-- A word of the command line. -/
inductive Word where
  /-- A family name or the value of a flag. -/
  | plain (text : String)
  /-- The first `--`, after which all words are plain. -/
  | separator
  /-- A flag, and the value attached to it if there is one. -/
  | flag (name : Flag) (attached : Option String)
  /-- A flag that is not known. -/
  | unknown (text : String)
  deriving DecidableEq, Repr

/-- A negative number: a minus sign before digits, which a point may precede or divide. A
line end may follow. -/
def isNegativeNumber (cs : List Char) : Bool :=
  let digit := fun c => (Text.decimalDigit? c).isSome
  let ends := fun (cs : List Char) => cs == [] || cs == ['\n']
  match cs with
  | '-' :: rest =>
    let after := rest.dropWhile digit
    let leading := after.length < rest.length
    leading && ends after ||
      (match after with
      | '.' :: fraction =>
        (fraction.head?.any digit) && ends (fraction.dropWhile digit)
      | _ => false)
  | _ => false

/-- What is attached to `-h`, letter by letter. Further letters `h` ask for help as well, and
so does any other letter, as the request is met before that letter is judged. An equals sign
or a dash makes the rest a value, which is returned. -/
def attachedToHelp : List Char → Option (List Char)
  | '-' :: rest => some ('-' :: rest)
  | 'h' :: '=' :: value => some value
  | 'h' :: rest => attachedToHelp rest
  | _ => none

/-- A word that begins with a dash and is no flag in full or shortened: a negative number and
a text with a space are plain words. -/
def readOther (cs : List Char) : Word :=
  if isNegativeNumber cs ∨ cs.contains ' ' then .plain (String.ofList cs)
  else .unknown (String.ofList cs)

/-- A word before the first `--`. Flags may be shortened, and a value may follow an equals
sign. -/
def readWord (text : String) : Except UsageError Word :=
  let cs := text.toList
  let name := cs.takeWhile (· != '=')
  let attached := match cs.drop name.length with
    | _ :: value => some (String.ofList value)
    | [] => none
  match cs with
  | ['-', 'h'] => .ok (.flag .help none)
  | '-' :: 'h' :: '=' :: value => .ok (.flag .help (some (String.ofList value)))
  | '-' :: 'h' :: rest => .ok (.flag .help ((attachedToHelp rest).map String.ofList))
  | '-' :: '-' :: _ =>
    match Flag.all.find? fun f => f.spelling.toList = name with
    | some f => .ok (.flag f attached)
    | none =>
      match Flag.matching name with
      | [] => .ok (readOther cs)
      | [f] => .ok (.flag f attached)
      | fs => .error (.ambiguous text fs)
  | '-' :: _ :: _ => .ok (readOther cs)
  | _ => .ok (.plain text)

/-- The words of a command line. -/
def readWords : List String → Except UsageError (List Word)
  | [] => .ok []
  | text :: rest =>
    if text = "--" then .ok (.separator :: rest.map .plain)
    else do
      let word ← readWord text
      .ok (word :: (← readWords rest))

/-- Where the family names of a command line stand. They are given in one run of words. -/
inductive FamilyRun where
  | ahead
  | open
  | past
  deriving DecidableEq, Repr

/-- The arguments that a command line gives. -/
structure Arguments where
  families : List String := []
  outputDir : Option String := none
  config : Option String := none
  workers : Option Int := none
  noBoys : Bool := false
  deriving DecidableEq, Repr

/-- What a command line asks for. -/
inductive Request where
  | help
  | run (arguments : Arguments)
  deriving DecidableEq, Repr

/-- The arguments with the value of a flag. -/
def Arguments.set (a : Arguments) (flag : Flag) (value : String) :
    Except UsageError Arguments :=
  match flag with
  | .outputDir => .ok { a with outputDir := value }
  | .config => .ok { a with config := value }
  | .workers =>
    match Text.readInt value with
    | .ok n => .ok { a with workers := n }
    | .error _ => .error (.notInteger flag value)
  | _ => .error (.unwantedValue flag value)

/-- A word of a run of family names; after the first run such words are left over. -/
def Arguments.addFamily (a : Arguments) (run : FamilyRun) (text : String)
    (extra : List String) : Arguments × List String :=
  if run = .past then (a, extra ++ [text]) else ({ a with families := a.families ++ [text] }, extra)

/-- Once words that are no flags have been met, a flag ends the run of family names. -/
def FamilyRun.close : FamilyRun → FamilyRun
  | .ahead => .ahead
  | _ => .past

/-- The run of family names after a word that is no flag. -/
def FamilyRun.enter : FamilyRun → FamilyRun
  | .past => .past
  | _ => .open

/-- Takes words into the arguments; `extra` holds the words that are left over. -/
def take (a : Arguments) (run : FamilyRun) (extra : List String) :
    List Word → Except UsageError Request
  | [] => if extra.isEmpty then .ok (.run a) else .error (.unrecognized extra)
  | .plain text :: rest =>
    let (a, extra) := a.addFamily run text extra
    take a run.enter extra rest
  | .separator :: rest =>
    take a run.enter (if run = .past then extra ++ ["--"] else extra) rest
  | .unknown text :: rest => take a run.close (extra ++ [text]) rest
  | .flag f (some value) :: rest => do
    let a ← a.set f value
    take a run.close extra rest
  | .flag .help none :: _ => .ok .help
  | .flag .noBoys none :: rest => take { a with noBoys := true } run.close extra rest
  | .flag f none :: .plain value :: rest => do
    let a ← a.set f value
    take a run.close extra rest
  | .flag f none :: _ => .error (.missingValue f)

/-- Reads a command line. -/
def read (words : List String) : Except UsageError Request := do
  take {} .ahead [] (← readWords words)

end GaussianIntegrals.CommandLine
