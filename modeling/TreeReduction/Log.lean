set_option autoImplicit false

/-!
# Logs

What a reader who watches the program is told: messages with named fields, each of a level of
severity. A log is data; the functions that make one take the least severe level that is wanted and
leave the rest out.
-/

namespace TreeReduction

/-- How severe a message is. -/
inductive Severity where
  | error
  | warn
  | info
  | debug
  | trace
  deriving DecidableEq

namespace Severity

/-- The rank of a level; the most severe has the lowest. -/
def rank : Severity → Nat
  | .error => 0
  | .warn => 1
  | .info => 2
  | .debug => 3
  | .trace => 4

/-- The word for a level. -/
def text : Severity → String
  | .error => "ERROR"
  | .warn => "WARN"
  | .info => "INFO"
  | .debug => "DEBUG"
  | .trace => "TRACE"

/-- Whether a message of a level is wanted by one who wants all up to `least`. -/
def wantedAt (level least : Severity) : Bool :=
  level.rank ≤ least.rank

end Severity

/-- A message. -/
structure LogEntry where
  level : Severity
  message : String
  fields : List (String × String)
  deriving DecidableEq

/-- Messages in order. -/
abbrev Log : Type := List LogEntry

namespace Log

/-- A log of one message, if it is wanted. -/
def one (least level : Severity) (message : String) (fields : List (String × String)) : Log :=
  if level.wantedAt least then [⟨level, message, fields⟩] else []

end Log

end TreeReduction
