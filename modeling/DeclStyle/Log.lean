/-!
# Log messages

Levels of severity, the messages that a run reports, and the line that a log file gets for each:
a time stamp, the level padded to five columns, the target and the text.  A file takes the messages
up to its threshold.
-/

namespace DeclStyle

/-- How severe a message is, the most severe first. -/
inductive LogLevel where
  | error
  | warn
  | info
  | debug
  | trace
  deriving DecidableEq, Repr, Inhabited

namespace LogLevel

/-- Every level, the most severe first. -/
def all : List LogLevel := [error, warn, info, debug, trace]

/-- The name of a level. -/
def label : LogLevel → String
  | error => "ERROR"
  | warn => "WARN"
  | info => "INFO"
  | debug => "DEBUG"
  | trace => "TRACE"

/-- The level of a given name. -/
def ofLabel? (s : String) : Option LogLevel := all.find? (·.label == s)

/-- The number of a level: the less severe, the greater. -/
def verbosity : LogLevel → Nat
  | error => 1
  | warn => 2
  | info => 3
  | debug => 4
  | trace => 5

/-- The name of a level, padded to five columns. -/
def column (level : LogLevel) : String :=
  level.label ++ String.ofList (List.replicate (5 - level.label.length) ' ')

end LogLevel

/-- The least severe level that is still written; `none` switches a log off. -/
abbrev LogThreshold := Option LogLevel

namespace LogThreshold

/-- The threshold of a given name. -/
def ofLabel? (s : String) : Option LogThreshold :=
  if s == "OFF" then some none else (LogLevel.ofLabel? s).map some

/-- Whether messages of a level are written. -/
def admits (threshold : LogThreshold) (level : LogLevel) : Bool :=
  match threshold with
  | none => false
  | some least => decide (level.verbosity ≤ least.verbosity)

end LogThreshold

/-- A message with its level. -/
structure LogEntry where
  level : LogLevel
  message : String
  deriving DecidableEq, Repr, Inhabited

/-- A message as it is sent to a log file, with the part of the program that sent it. -/
structure LogRecord where
  level : LogLevel
  target : String
  message : String
  deriving DecidableEq, Repr, Inhabited

namespace LogRecord

/-- The line of a record under a given time stamp. -/
def line (stamp : String) (r : LogRecord) : String :=
  "[" ++ stamp ++ "] " ++ r.level.column ++ " " ++ r.target ++ ": " ++ r.message ++ "\n"

/-- What a file with the given threshold grows by when it is sent a record. -/
def appended (threshold : LogThreshold) (stamp : String) (r : LogRecord) : String :=
  if threshold.admits r.level then r.line stamp else ""

end LogRecord

end DeclStyle
