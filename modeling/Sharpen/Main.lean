import Sharpen.CommandLine.Run

/-!
# The program

Reads from disk what a command line is about, runs the command line on it, and writes what has
changed.

Everything but this is a function of the arguments and of the disk. What stands at the paths of the
command line is read before the run, folders down to a bound, and what the run gives back is
compared with it; the difference is written. So this is the only place at which anything is done.

## Main definitions

* `Program.pathsOf` says which paths a command line is about; `Program.readLocation` reads what
  stands there.
* `Program.mayBeRead` says whether a conversion may read a file of that name.
* `Program.writeChanges` writes to disk what has changed from one folder to the other.
* `main` runs a command line on the disk.
-/

namespace Sharpen.Program

open Sharpen.Path (Location)

/-- The path of a location, for the system. -/
def systemPath (l : Location) : String :=
  String.ofList (Path.ofLocation l)

/-- Whether a conversion may read a file of that name when it finds it in a folder. Of other files
it is enough to know that they are there. -/
def mayBeRead (name : Text) : Bool :=
  name == settingsFileName || (SourceKind.ofSuffix? (Path.suffix name)).isSome

/-- The bytes of a file. -/
def readContent (l : Location) : IO Content := do
  let bytes ← IO.FS.readBinFile (systemPath l)
  pure (.bytes bytes.toList)

/-- The entries of a folder, down to some depth. -/
def readFolder : (depth : Nat) → Location → IO Folder
  | 0, _ => pure .empty
  | depth + 1, l => do
    let mut found := Folder.empty
    for e in ← ((← IO.currentDir) / systemPath l).readDir do
      let name := e.fileName.toList
      let here := l ++ [name]
      if ← e.path.isDir then
        found := found.set name (.folder (← readFolder depth here))
      else if ← e.path.pathExists then
        found := found.set name
          (.file (← if mayBeRead name then readContent here else pure (.bytes [])))
      else
        found := found.set name (.file .brokenLink)
    pure found

/-- How deep folders are read. -/
def depthBound : Nat := 64

/-- The disk with all that stands at a location, given by the names on the way there from `here`.
Only the last of them is read with what is below it. -/
def readLocation (top : Folder) (here : Location) : List Text → IO Folder
  | [] => do
    let inner ← readFolder depthBound here
    pure (top.setAt (.folder inner) here)
  | n :: r => do
    let next := here ++ [n]
    let path := (← IO.currentDir) / systemPath next
    if ← path.isDir then
      let top := if (top.at? next).isSome then top else top.setAt (.folder .empty) next
      readLocation top next r
    else if ← path.pathExists then
      let content ← readContent next
      pure (top.setAt (.file content) next)
    else pure top

/-- The paths that a command line is about, those of single files last. -/
def pathsOf (arguments : List Text) : List Text :=
  match Request.ofArguments arguments with
  | .ok (.convert r) =>
    r.source :: ((splitTargets r.targets).output.toList ++ r.settingsFile.toList
      ++ r.logFile.toList)
  | _ => []

/-- Writes to disk what has changed from one folder to the other. -/
def writeChanges (here : Location) (before : Folder) : Folder → IO Unit
  | .empty => pure ()
  | .file n content rest => do
    match content with
    | .bytes b =>
      if before.find? n != some (.file content) then
        IO.FS.writeBinFile (systemPath (here ++ [n])) ⟨b.toArray⟩
    | .brokenLink => pure ()
    writeChanges here before rest
  | .folder n inner rest => do
    if (before.find? n).isNone then IO.FS.createDir (systemPath (here ++ [n]))
    writeChanges (here ++ [n]) (before.sub n) inner
    writeChanges here before rest

end Sharpen.Program

open Sharpen Sharpen.Program in
/-- Runs a command line on the disk. -/
def main (arguments : List String) : IO UInt32 := do
  let arguments : List Text := arguments.map String.toList
  let working := Path.parts (← IO.currentDir).toString.toList
  let top ← ((pathsOf arguments).map (Path.resolve working)).foldlM
    (fun top l => readLocation top [] l) (Folder.empty.setAt (.folder .empty) working)
  match (runCommandLine working arguments).run.run top with
  | (.error e, _) =>
    (← IO.getStderr).putStr (String.ofList (e.message ++ "\n"))
    pure 1
  | (.ok r, after) =>
    writeChanges [] top after
    (← IO.getStderr).putStr (String.ofList r.errors)
    (← IO.getStdout).putStr (String.ofList r.output)
    pure r.status.toUInt32
