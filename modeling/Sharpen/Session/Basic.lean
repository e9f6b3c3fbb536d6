import Sharpen.FileTree.Access
import Sharpen.Log
import Sharpen.Settings.Load

/-!
# Sessions

A session converts files of a disk. It keeps the settings it has read first, and gathers records.

A computation in a session takes the state with the disk, may fail, and leaves the state as it is
then, so that nothing that was done before a failure is lost. Settings that are known to the session
are used for every folder, and those that are read first stay.

## Main definitions

* `Session` is the state of a session; `Run` is a computation in it that may fail.
* `Run.report` adds a record.
* `Run.loadSettings` reads settings.
* `Failure` says why a conversion fails.
* `Run.disk` does something on the disk, and gives what comes of it.
* `Run.onDisk` does something on the disk; a failure ends the conversion.
-/

namespace Sharpen

open Sharpen.Path (Location)

/-- Why a conversion fails. -/
inductive Failure where
  /-- There is no folder to convert from. -/
  | noSourceFolder (path : Text)
  | settings (e : SettingsError)
  /-- The settings file is not UTF-8. -/
  | encoding (e : Utf8Fault)
  | file (e : FileError)
deriving DecidableEq, Repr

/-- The message of a failure. -/
def Failure.message : Failure → Text
  | .noSourceFolder path => ("Source directory not found: " : Text) ++ path
  | .settings e => e.message
  | .encoding e => e.message
  | .file e => e.message

/-- The state of a session. -/
structure Session where
  /-- The folder that paths lead on from. -/
  working : Location := []
  disk : Folder
  /-- The settings, once they are known. -/
  settings : Option Settings := none
  records : List Record := []
deriving Repr

/-- A computation in a session that may fail. What it has reported and written stays. -/
abbrev Run := ExceptT Failure (StateM Session)

namespace Run

/-- Adds records. -/
def reportAll (records : List Record) : Run Unit :=
  modify fun s => { s with records := s.records ++ records }

/-- Adds a record of the conversion. -/
def report (level : Level) (message : Text) : Run Unit :=
  reportAll [⟨level, "converter", message⟩]

/-- Does something on the disk, and gives what comes of it. -/
def disk {α : Type} (act : Location → Disk α) : Run (Except FileError α) := do
  let s ← get
  let (result, top) := (act s.working).run.run s.disk
  set { s with disk := top }
  pure result

/-- Does something on the disk; a failure ends the conversion. -/
def onDisk {α : Type} (act : Location → Disk α) : Run α := do
  match ← disk act with
  | .ok a => pure a
  | .error e => throw (.file e)

/-- Reads the settings from a file, or from the settings file of a folder. Without a file the
defaults hold. -/
def loadSettings (path : Text) : Run Settings := do
  let s ← get
  let file := Path.ofLocation (Path.resolve s.working
    (if s.disk.isFolder s.working path then Path.join path settingsFileName else path))
  if s.disk.isThere s.working file then
    match Text.ofUtf8 (← onDisk (Disk.read · file)) with
    | .error e => throw (.encoding e)
    | .ok text =>
      match Settings.ofText (Path.name file) text with
      | .ok settings => pure settings
      | .error e => throw (.settings e)
  else pure {}

/-- The settings of the session: those it has, or else those of a folder, which it keeps. -/
def settingsFor (source : Text) : Run Settings := do
  match (← get).settings with
  | some settings => pure settings
  | none =>
    let settings ← loadSettings (Path.join source settingsFileName)
    modify fun s => { s with settings := some settings }
    pure settings

end Run

end Sharpen
