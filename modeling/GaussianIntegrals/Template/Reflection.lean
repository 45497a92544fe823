/-
  What the fields of a template reach beyond texts and integers: attributes of values, and the
  objects that these lead to. They belong to the runtime that fills the template in, so they are
  a parameter, a reflection. The standard one knows the descriptions and the types of values; the
  texts of other attributes, such as those of methods, change from one run to the next.
-/
import GaussianIntegrals.Template.Spec

namespace GaussianIntegrals.Template

/-- A step from a value to a part of it. -/
inductive Part where
  | named (name : List Char)
  | indexed (name : List Char)
  deriving DecidableEq, Repr

/-- What is known of attributes and objects. -/
structure Reflection where
  /-- An attribute of a value, or any part of an object. -/
  part : Value → Part → Except TemplateError Value
  /-- The text of an object under a conversion. -/
  convert : (object : String) → (mark : Char) → Except TemplateError String
  /-- The text of an object under a specification. -/
  format : (object : String) → (spec : List Char) → Except TemplateError (List Char)

namespace Reflection

/-- No value has attributes. -/
def bare : Reflection where
  part _ _ := .error .noPart
  convert _ _ := .error .noPart
  format _ _ := .error .noPart

/-- The description of texts. -/
def textDescription : String :=
  "str(object='') -> str\nstr(bytes_or_buffer[, encoding[, errors]]) -> str\n\n" ++
    "Create a new string object from the given object. If encoding or\n" ++
    "errors is specified, then the object must expose a data buffer\n" ++
    "that will be decoded using the given encoding and error handler.\n" ++
    "Otherwise, returns the result of object.__str__() (if defined)\nor repr(object).\n" ++
    "encoding defaults to sys.getdefaultencoding().\nerrors defaults to 'strict'."

/-- The description of integers. -/
def integerDescription : String :=
  "int([x]) -> integer\nint(x, base=10) -> integer\n\n" ++
    "Convert a number or string to an integer, or return 0 if no arguments\n" ++
    "are given.  If x is a number, return x.__int__().  For floating point\n" ++
    "numbers, this truncates towards zero.\n\n" ++
    "If x is not a number or if base is given, then x must be a string,\n" ++
    "bytes, or bytearray instance representing an integer literal in the\n" ++
    "given base.  The literal can be preceded by '+' or '-' and be surrounded\n" ++
    "by whitespace.  The base defaults to 10.  Valid bases are 0 and 2-36.\n" ++
    "Base 0 means to interpret the base from the string as an integer literal.\n" ++
    ">>> int('0b100', base=0)\n4"

/-- The description of the values of a type. -/
def description? : (typeName : String) → Option String
  | "str" => some textDescription
  | "int" => some integerDescription
  | _ => none

/-- Descriptions and types of texts and integers; the type of a value is an object by its name. -/
def standard : Reflection where
  part v p :=
    match p, v with
    | .indexed _, _ => .error .notIndexable
    | .named name, .object typeName =>
      if name = "__name__".toList then .ok (.text typeName)
      else if name = "__doc__".toList then
        (description? typeName).elim (.error .noPart) fun s => .ok (.text s)
      else .error .noPart
    | .named name, v =>
      if name = "__doc__".toList then
        (description? v.typeName).elim (.error .noPart) fun s => .ok (.text s)
      else if name = "__class__".toList then .ok (.object v.typeName)
      else .error .noPart
  convert typeName _ := .ok s!"<class '{typeName}'>"
  format typeName spec :=
    if spec.isEmpty then .ok s!"<class '{typeName}'>".toList else .error .noFormat

end Reflection

end GaussianIntegrals.Template
