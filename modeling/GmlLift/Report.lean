/-!
# Report lines

Lifting can report what it does. A `Note` is one line at one `Level`; a verbosity is the least
severe level that is wanted, or none.
-/

namespace GmlLift

/-- How severe a report line is. -/
inductive Level where
  | trace | debug | warn
  deriving DecidableEq, Repr

namespace Level

def severity : Level → Nat
  | trace => 0
  | debug => 1
  | warn => 2

def name : Level → String
  | trace => "trace"
  | debug => "debug"
  | warn => "warn"

/-- Is a line of this level wanted at this verbosity? -/
def wantedAt (level : Level) : Option Level → Bool
  | none => false
  | some least => least.severity ≤ level.severity

end Level

/-- One report line. -/
structure Note where
  level : Level
  text : String
  deriving DecidableEq, Repr

/-- The line with its level in front. -/
def Note.line (n : Note) : String :=
  n.level.name ++ " " ++ n.text

end GmlLift
