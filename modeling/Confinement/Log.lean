/-!
# Log lines

What a run reports beside its results.
-/

namespace Confinement

/-- How much a log line matters. -/
inductive Level where
  | error
  | warn
  | info
  | debug
  deriving DecidableEq, Repr

/-- The name under which a level is shown. -/
def Level.label : Level → String
  | .error => "ERROR"
  | .warn => "WARN"
  | .info => "INFO"
  | .debug => "DEBUG"

/-- One line of the log. -/
structure LogLine where
  level : Level
  text : String
  deriving DecidableEq, Repr

/-- Log lines, the oldest first. -/
abbrev Log := List LogLine

end Confinement
