/-
Log records kept as data. An operation that reports progress adds
records to a journal; nothing is printed here, so the order of the
records is part of what can be stated about the operation.
-/
namespace RegisterMap

/-- How much a record matters to a reader of the log. -/
inductive Level where
  | debug
  | info
  | warn
  deriving DecidableEq, Repr

/-- The word a record is introduced with. -/
def Level.label : Level → String
  | .debug => "DEBUG"
  | .info => "INFO"
  | .warn => "WARN"

/-- One line of the log. -/
structure LogRecord where
  level : Level
  text : String
  deriving DecidableEq, Repr

/-- A record as one line of text. -/
def LogRecord.line (r : LogRecord) : String := r.level.label ++ " " ++ r.text

/-- Log records, oldest first. -/
abbrev Journal := Array LogRecord

end RegisterMap
