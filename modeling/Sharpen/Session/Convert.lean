import Sharpen.CSharp.File
import Sharpen.FileTree.Scan
import Sharpen.Session.Basic

/-!
# Converting files

A file that cannot be read is reported and left out, and the others are converted. A failure to make
the output folder or to write a file is reported, too, and ends the conversion. What comes of it all
is the folder, the files that were written and those that were left out, the warnings, and the
contents by name.

## Main definitions

* `Run.convertFolder` converts all files below a folder.
* `Run.convertSelected` converts files of a folder by name.
* `Outcome` is what comes of converting files.
* `Run.readFile` reads a file, and parses it.
* `Run.readFiles` reads files one after the other.
* `Run.makeOutputFolder` makes the output folder; a failure is reported, and ends the conversion.
-/

namespace Sharpen

/-- What comes of converting files. -/
structure Outcome where
  outputFolder : Text
  written : List Text := []
  /-- The files that could not be read. -/
  skipped : List Text := []
  warnings : List Text := []
  contents : List NamedText := []
deriving DecidableEq, Repr

namespace Run

/-- Reads a file, and parses it. A file that cannot be read is reported and left out. -/
def readFile {α : Type} (label : Text) (parse : Text → Text → α × List Record) (path : Text) :
    Run (Option α) := do
  match ← disk (Disk.read · path) with
  | .ok bytes =>
    report .info (("Parsing " : Text) ++ label ++ ": " ++ Path.name path)
    let (a, records) := parse (Text.ofBytes bytes) path
    reportAll records
    pure (some a)
  | .error e =>
    report .warning (("Skipping " : Text) ++ path ++ ": " ++ e.message)
    pure none

/-- Reads files one after the other. Gives what has been parsed and the paths left out. -/
def readFiles {α : Type} (label : Text) (parse : Text → Text → α × List Record) :
    List Text → Run (List α × List Text)
  | [] => pure ([], [])
  | path :: r => do
    let a? ← readFile label parse path
    let (as, skipped) ← readFiles label parse r
    match a? with
    | some a => pure (a :: as, skipped)
    | none => pure (as, path :: skipped)

/-- Makes the output folder; a failure is reported, and ends the conversion. -/
def makeOutputFolder (folder : Text) : Run Unit := do
  match ← disk (Disk.makeFolders · folder) with
  | .ok () => pure ()
  | .error e =>
    report .error (("Error creating output directory " : Text) ++ folder ++ ": " ++ e.message)
    throw (.file e)

/-- Writes a generated file; a failure is reported, and ends the conversion. -/
def writeFile (folder : Text) (file : NamedText) : Run Text := do
  let path := Path.join folder file.1
  match ← disk (Disk.write · path file.2.toBytes) with
  | .ok () =>
    report .info (("Generated C# file: " : Text) ++ Path.name path)
    pure path
  | .error e =>
    report .error (("Error writing C# file " : Text) ++ path ++ ": " ++ e.message)
    throw (.file e)

/-- Converts files and writes what is generated. -/
def convertFiles (settings : Settings) (files : SourceFiles) (output : Text) : Run Outcome := do
  report .info (("Found " : Text) ++ Text.ofNat files.headers.length ++ " header file(s) and "
    ++ Text.ofNat files.sources.length ++ " source file(s)")
  let (headers, skippedHeaders) ← readFiles "header" parseHeader files.headers
  let (sources, skippedSources) ← readFiles "source" parseSource files.sources
  let plan := Plan.ofParts headers sources
  reportAll (plan.notices.map PlanNotice.toRecord)
  let contents := fileContents (renderPlan settings plan)
  makeOutputFolder output
  let written ← contents.mapM (writeFile output)
  report .info (("Conversion completed: " : Text) ++ Text.ofNat written.length
    ++ " file(s) written")
  pure { outputFolder := output, written := written, skipped := skippedHeaders ++ skippedSources
         warnings := plan.warnings, contents := contents }

/-- The folder that a path leads to, by its full path. -/
def sourceFolder (path : Text) : Run Text := do
  let s ← get
  let full := Path.ofLocation (Path.resolve s.working path)
  if s.disk.isFolder s.working full then pure full else throw (.noSourceFolder full)

/-- The folder for generated files: the one asked for, or the one that the settings name. -/
def outputFolder (settings : Settings) (source : Text) (output : Option Text) : Text :=
  match output with
  | some path => Path.display path
  | none => Path.join source settings.outputSubdir

/-- The files below a folder, without what the settings exclude and without the output folder. -/
def scanSources (settings : Settings) (source output : Text) : Run SourceFiles := do
  let s ← get
  match SourceFiles.scanPath s.disk s.working settings.excludePaths [output] source with
  | .error _ => throw (.noSourceFolder source)
  | .ok (found, root) =>
    reportAll [found.scanRecord root]
    pure { headers := found.headers.map (Path.join source)
           sources := found.sources.map (Path.join source) }

/-- Converts all files below a folder. -/
def convertFolder (path : Text) (output : Option Text) : Run Outcome := do
  let source ← sourceFolder path
  let settings ← settingsFor source
  let output := outputFolder settings source output
  report .info (("Converting C++ files from " : Text) ++ source ++ " into " ++ output)
  let files ← scanSources settings source output
  convertFiles settings files output

/-- Converts files of a folder by name. -/
def convertSelected (path : Text) (names : List Text) (output : Option Text) : Run Outcome := do
  let source ← sourceFolder path
  let settings ← settingsFor source
  let output := outputFolder settings source output
  report .info (("Converting " : Text) ++ Text.join ", " names ++ " from " ++ source ++ " into "
    ++ output)
  let s ← get
  let (files, records) := SourceFiles.select (s.disk.isFile s.working) source names {}
  reportAll records
  convertFiles settings files output

end Run

end Sharpen
