import Sharpen.Log

/-!
# Log output

Records go to the console and, if there is one, to a log file. The console shows little unless it is
told to show all; the file keeps everything.

The console shows records from the level of information on, or every record with its component if it
is to show all. The file has every record with its component. Before any output is set up, warnings
show with their message alone.

## Main definitions

* `LogOutput` says what is written where.
* `LogOutput.consoleText` and `LogOutput.fileText` are what a record adds to each.
* `Record.of` is a record of a component; without a component it bears the common name.
* `LogOutput.detailed` is a record with its component.
-/

namespace Sharpen

/-- The name of all logging together. -/
def logName : Text :=
  "cpp2cs"

/-- The full name of the component that reports; without a component it is the common name. -/
def logNameOf (component : Text) : Text :=
  if component.isEmpty then logName else logName ++ "." ++ component

/-- A record of a component; without a component it bears the common name. -/
def Record.of (level : Level) (component message : Text) : Record :=
  ⟨level, if component.isEmpty then logName else component, message⟩

/-- Where records are written. -/
structure LogOutput where
  /-- Whether the console shows every record, with its component. -/
  verbose : Bool := false
  /-- Whether there is a log file. -/
  toFile : Bool := false
deriving DecidableEq, Repr

namespace LogOutput

/-- The least level that the console shows. -/
def consoleLevel (o : LogOutput) : Level :=
  if o.verbose then .debug else .info

/-- The least level that is written anywhere. -/
def level (o : LogOutput) : Level :=
  if o.verbose || o.toFile then .debug else .info

/-- The number of places to which records are written. -/
def places (o : LogOutput) : Nat :=
  if o.toFile then 2 else 1

/-- A record with its component. -/
def detailed (r : Record) : Text :=
  r.level.name ++ " " ++ r.component ++ ": " ++ r.message ++ "\n"

/-- What a record adds to the console. -/
def consoleText (o : LogOutput) (r : Record) : Text :=
  if r.level.rank < o.consoleLevel.rank then []
  else ("[cpp2cs] " : Text) ++
    if o.verbose then detailed r else r.level.name ++ " " ++ r.message ++ "\n"

/-- What a record adds to the log file. -/
def fileText (o : LogOutput) (r : Record) : Text :=
  if o.toFile then detailed r else []

/-- What records show on the console before any output has been set up: the message alone, from
warnings on. -/
def bareText (r : Record) : Text :=
  if r.level.rank < Level.warning.rank then [] else r.message ++ "\n"

end LogOutput

end Sharpen
