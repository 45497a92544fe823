/-
  Log levels and records.
-/
namespace GaussianIntegrals

/-- The weight of a record, lightest first. -/
inductive LogLevel where
  | debug
  | info
  | warning
  | error
  | critical
  deriving DecidableEq, Repr

namespace LogLevel

/-- The levels in order. -/
def all : List LogLevel := [.debug, .info, .warning, .error, .critical]

/-- The rank of a level. -/
def rank : LogLevel → Nat
  | .debug => 0
  | .info => 1
  | .warning => 2
  | .error => 3
  | .critical => 4

/-- The name of a level. -/
def text : LogLevel → String
  | .debug => "DEBUG"
  | .info => "INFO"
  | .warning => "WARNING"
  | .error => "ERROR"
  | .critical => "CRITICAL"

/-- The level of a name in capitals. -/
def ofText? (s : String) : Option LogLevel := all.find? fun l => l.text == s

end LogLevel

/-- A message with its level. -/
structure LogRecord where
  level : LogLevel
  message : String
  deriving DecidableEq, Repr

/-- The line of a record. -/
def LogRecord.line (r : LogRecord) : String := s!"{r.level.text} - {r.message}"

/-- The record is heavy enough for a threshold. -/
def LogRecord.reaches (threshold : LogLevel) (r : LogRecord) : Bool :=
  threshold.rank ≤ r.level.rank

end GaussianIntegrals
