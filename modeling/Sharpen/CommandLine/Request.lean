import Sharpen.CommandLine.Options
import Sharpen.FileTree.Path

/-!
# Requests

What a command line asks for. There is one subcommand, which converts the files of a folder.

A request is for the usage of a command or for a conversion, with the folder, the targets and what
the options say. Of two targets the first lists files and the second is the output folder. A single
target stands for files if it is a list or has the suffix of a source file, and for the output
folder otherwise.

## Main definitions

* `Request.ofArguments` reads a command line.
* `splitTargets` tells apart the files and the output folder that follow the source folder.
* `mainCommand` is the command.
* `convertCommand` is the subcommand.
* `ConvertRequest` is a conversion that is asked for.
* `Request` is what a command line asks for.
-/

namespace Sharpen

/-- Asks how a command is used. -/
def helpOption : OptionSpec :=
  ⟨["-h", "--help"], false⟩

/-- Asks for more output. -/
def verboseOption : OptionSpec :=
  ⟨["-v", "--verbose"], false⟩

/-- Names the log file. -/
def logFileOption : OptionSpec :=
  ⟨["--log-file"], true⟩

/-- Names the settings file. -/
def settingsOption : OptionSpec :=
  ⟨["--config"], true⟩

/-- The name of the subcommand. -/
def convertName : Text :=
  "convert"

/-- The command. -/
def mainCommand : Command :=
  { program := "cpp2cs"
    usage := "usage: cpp2cs [-h] [-v] [--log-file LOG_FILE] \x7bconvert\x7d ...\n"
    options := [helpOption, verboseOption, logFileOption] }

/-- The subcommand. -/
def convertCommand : Command :=
  { program := "cpp2cs convert"
    usage := "usage: cpp2cs convert [-h] [-v] [--config CONFIG] [source_dir] [targets ...]\n"
    options := [helpOption, verboseOption, settingsOption] }

/-- A conversion that is asked for. -/
structure ConvertRequest where
  verbose : Bool := false
  logFile : Option Text := none
  settingsFile : Option Text := none
  source : Text := []
  targets : List Text := []
deriving DecidableEq, Repr

/-- What a command line asks for. -/
inductive Request where
  /-- To see how a command is used. -/
  | usage (c : Command)
  | convert (r : ConvertRequest)
deriving DecidableEq, Repr

/-- A command line that asks for nothing, with the command that refuses it. -/
structure UsageError where
  command : Command
  fault : UsageFault
deriving DecidableEq, Repr

/-- What is written about a command line that asks for nothing. -/
def UsageError.message (e : UsageError) : Text :=
  e.command.usage ++ e.command.program ++ ": error: " ++ e.fault.message ++ "\n"

/-- The options read so far, and the arguments that mean nothing. -/
structure OptionState where
  request : ConvertRequest := {}
  extras : List Text := []
deriving DecidableEq, Repr

/-- Why reading options ends early. -/
inductive EarlyEnd where
  | help (c : Command)
  | fault (e : UsageError)
deriving DecidableEq, Repr

/-- Takes account of what reading the options of a command has come upon. -/
def OptionState.take (c : Command) (s : OptionState) : OptionEvent → Except EarlyEnd OptionState
  | .extra a => .ok { s with extras := s.extras ++ [a] }
  | .fault f => .error (.fault ⟨c, f⟩)
  | .option o value =>
    if o == helpOption then .error (.help c)
    else if o == verboseOption then .ok { s with request := { s.request with verbose := true } }
    else if o == logFileOption then .ok { s with request := { s.request with logFile := value } }
    else .ok { s with request := { s.request with settingsFile := value } }

/-- Takes account of one event after the other. -/
def OptionState.takeAll (c : Command) (s : OptionState) (events : List OptionEvent) :
    Except EarlyEnd OptionState :=
  events.foldlM (OptionState.take c) s

/-- A classification, with the command in its fault. -/
def classified (c : Command) (arguments : List Text) : Except EarlyEnd (List Argument) :=
  (c.classify arguments).mapError fun f => .fault ⟨c, f⟩

/-- Whether an argument is the separator. -/
def isSeparator (a : Argument) : Bool :=
  a.2 == .separator

/-- Whether an argument is a word or the separator. -/
def isWordLike (a : Argument) : Bool :=
  a.2 == .word || isSeparator a

/-- The texts of arguments, without the first that is two dashes. -/
def withoutDashes (arguments : List Argument) : List Text :=
  (arguments.map Prod.fst).erase "--"

/-- The source folder and the targets among the words of the subcommand. Separators around the first
word go with it. -/
def sourceAndTargets (words : List Argument) : Text × List Text :=
  let before := words.takeWhile isSeparator
  let rest := words.drop before.length
  let first := rest.take (if rest.head?.any fun a => !isSeparator a then 1 else 0)
  let rest := rest.drop first.length
  let after := rest.takeWhile isSeparator
  ((withoutDashes (before ++ first ++ after)).headD [], withoutDashes (rest.drop after.length))

/-- Reads the arguments of the subcommand. Only the first words in a row are its own. -/
def readConvert (s : OptionState) (arguments : List Text) : Except EarlyEnd OptionState := do
  let c := convertCommand
  let items ← classified c arguments
  let (before, rest) := c.readOptions true none items
  let words := rest.takeWhile isWordLike
  let (after, _) := c.readOptions false none (rest.drop words.length)
  let (source, targets) := sourceAndTargets words
  let s ← s.takeAll c (before ++ after)
  pure { s with request := { s.request with source := source, targets := targets } }

/-- Reads a whole command line. Without a subcommand there is no source. -/
def readMain (arguments : List Text) : Except EarlyEnd OptionState := do
  let c := mainCommand
  let items ← classified c arguments
  let (events, rest) := c.readOptions true none items
  let s ← ({} : OptionState).takeAll c events
  match rest with
  | [] => pure s
  | (name, kind) :: more =>
    if kind == .separator && more.isEmpty then pure { s with extras := s.extras ++ [name] }
    else if name == convertName then readConvert s (more.map Prod.fst)
    else throw (.fault ⟨c, .unknownCommand name [convertName]⟩)

/-- What a command line asks for. -/
def Request.ofArguments (arguments : List Text) : Except UsageError Request :=
  match readMain arguments with
  | .error (.help c) => .ok (.usage c)
  | .error (.fault e) => .error e
  | .ok s =>
    if !s.extras.isEmpty then .error ⟨mainCommand, .unrecognized s.extras⟩
    else if s.request.source.isEmpty then .ok (.usage mainCommand)
    else .ok (.convert s.request)

/-! ### Targets -/

/-- The files and the output folder of a conversion. -/
structure Targets where
  files : Option (List Text) := none
  output : Option Text := none
deriving DecidableEq, Repr

/-- The names in a list with commas. -/
def fileList (t : Text) : List Text :=
  ((Text.splitOn ',' t).map Text.trim).filter (!·.isEmpty)

/-- Whether a single target names files: it is a list, or has the suffix of a source file. -/
def namesFiles (t : Text) : Bool :=
  t.contains ',' || t.lower.endsWith ".h" || t.lower.endsWith ".cpp"

/-- What the targets mean: files and an output folder, or one of the two. -/
def splitTargets : List Text → Targets
  | [] => {}
  | [t] =>
    if namesFiles t then { files := some (fileList t) } else { output := some (Path.display t) }
  | t :: o :: _ => { files := some (fileList t), output := some (Path.display o) }

end Sharpen
