import Sharpen.Text.Basic

/-!
# Log records

Every stage reports what it skips and what it cannot place. A report is a value: the stages have
types of notices of their own, and a notice can be shown as a record.

The level orders records, the component names the stage that reports, and the message is a text. How
records are written and which of them are shown is left to the output.

## Main definitions

* `Record` is a level, the component that reports, and a message.
* `Level` says how serious a record is, in increasing order.
-/

namespace Sharpen

/-- How serious a record is, in increasing order. -/
inductive Level where
  | debug
  | info
  | warning
  | error
  | critical
deriving DecidableEq, Repr, Inhabited

namespace Level

/-- The name of a level. -/
def name : Level → Text
  | .debug => "DEBUG"
  | .info => "INFO"
  | .warning => "WARNING"
  | .error => "ERROR"
  | .critical => "CRITICAL"

/-- The number that orders a level among the others. -/
def rank : Level → Nat
  | .debug => 10
  | .info => 20
  | .warning => 30
  | .error => 40
  | .critical => 50

end Level

/-- One record of the log. -/
structure Record where
  level : Level
  component : Text
  message : Text
deriving DecidableEq, Repr

end Sharpen
