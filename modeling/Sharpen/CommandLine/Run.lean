import Sharpen.CommandLine.Request
import Sharpen.Log.Output
import Sharpen.Session.Convert

/-!
# Running a command line

A command line is run on a disk: it gives an exit status and two texts, and leaves another disk.

Usage faults end with status two, failures of a conversion with status one. The summary says how
many files were written, and how many warnings there were if there were any; the output folder is
shown from the working folder when it lies below it. The log file is opened before anything else and
written when the conversion is over.

## Main definitions

* `runCommandLine` runs a command line.
* `CommandResult` is what a command has written, and its exit status.
* `shownFromWorking` is a path from the working folder, if it leads to something below it.
* `Outcome.summary` is what is said of a conversion.
* `Run.convertTargets` converts what is asked for, once the settings are known.
* `openLog` opens the log file, which is there from then on.
-/

namespace Sharpen

open Sharpen.Path (Location)

/-- What a command has written, and its exit status. -/
structure CommandResult where
  status : Nat := 0
  output : Text := []
  errors : Text := []
deriving DecidableEq, Repr

/-- A path from the working folder, if it leads to something below it. -/
def shownFromWorking (working : Location) (path : Text) : Text :=
  match Path.below? working (Path.resolve working path) with
  | some below => Path.ofParts [] below
  | none => path

/-- What is said of a conversion. -/
def Outcome.summary (o : Outcome) (working : Location) : Text :=
  let written : Text := ("Converted " : Text) ++ Text.ofNat o.written.length ++ " file(s) into "
    ++ shownFromWorking working o.outputFolder ++ "\n"
  let warned : Text :=
    Text.ofNat o.warnings.length ++ (" warning(s); see the log for details\n" : Text)
  if o.warnings.isEmpty then written else written ++ warned

/-- What is said of a failure. -/
def Failure.report : Failure → Text
  | .file e => ("cpp2cs convert failed: " : Text) ++ e.message
    ++ "\nRun with --verbose for more details.\n"
  | f => f.message ++ "\n"

/-- Converts what is asked for, once the settings are known. -/
def Run.convertTargets (r : ConvertRequest) : Run Outcome :=
  let targets := splitTargets r.targets
  match targets.files with
  | none => Run.convertFolder r.source targets.output
  | some files => Run.convertSelected r.source files targets.output

/-- Opens the log file, which is there from then on. The path in a failure is the full one. -/
def openLog (working : Location) (logFile : Option Text) : Disk Unit :=
  match logFile with
  | none => pure ()
  | some path => Disk.append working (Path.ofLocation (Path.resolve working path)) []

/-- Adds records to the log file. -/
def writeLog (working : Location) (logFile : Option Text) (text : Text) : Disk Unit :=
  match logFile with
  | none => pure ()
  | some path => Disk.append working (Path.ofLocation (Path.resolve working path)) text.toBytes

/-- A command that runs on a disk. It fails as a whole only if the log file or the settings file
cannot be opened or read. -/
abbrev DiskRun := ExceptT Failure (StateM Folder)

/-- An operation on the disk as part of a command. -/
def DiskRun.ofDisk {α : Type} (act : Disk α) : DiskRun α :=
  act.adapt .file

/-- Runs a conversion. -/
def runConvert (working : Location) (r : ConvertRequest) : DiskRun CommandResult := do
  DiskRun.ofDisk (openLog working r.logFile)
  let log : LogOutput := { verbose := r.verbose, toFile := r.logFile.isSome }
  let start : Session := { working := working, disk := ← get }
  match (Run.loadSettings (r.settingsFile.getD r.source)).run.run start with
  | (.error (.settings e), _) => pure { status := 1, errors := e.message ++ "\n" }
  | (.error f, _) => throw f
  | (.ok settings, s) =>
    let (result, s) := (Run.convertTargets r).run.run { s with settings := some settings }
    set s.disk
    DiskRun.ofDisk <| writeLog working r.logFile (s.records.flatMap log.fileText)
    let shown := s.records.flatMap log.consoleText
    match result with
    | .ok o => pure { output := o.summary working, errors := shown }
    | .error f => pure { status := 1, errors := shown ++ f.report }

/-- Runs a command line in a working folder. -/
def runCommandLine (working : Location) (arguments : List Text) : DiskRun CommandResult :=
  match Request.ofArguments arguments with
  | .error e => pure { status := 2, errors := e.message }
  | .ok (.usage c) => pure { output := c.usage }
  | .ok (.convert r) => runConvert working r

end Sharpen
