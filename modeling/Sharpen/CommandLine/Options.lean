import Sharpen.Text.Digit
import Sharpen.Text.Quoted

/-!
# Options

Reads the options of a command line. An option has one or more spellings, may be abbreviated as long
as that is not ambiguous, and may take a value: in the next argument, behind an equals sign, or, for
a spelling of one letter, directly behind it. Such letters may also stand together.

Reading goes from left to right and stops at the first fault. What the arguments mean is decided
first, all at once, since words and options are told apart by their form and by the options that are
known. Behind two dashes there are only words.

## Main definitions

* `Command.classify` says what each argument is.
* `Command.readOptions` reads options up to the next word, or all of them.
* `UsageFault.message` says what is wrong with a command line.
* `OptionSpec` is an option of a command.
* `Command` is a command: how it is named and used, and its options.
* `UsageFault` is what is wrong with a command line.
-/

namespace Sharpen

/-- An option of a command. -/
structure OptionSpec where
  spellings : List Text
  takesValue : Bool
deriving DecidableEq, Repr

/-- A command: how it is named and used, and its options. -/
structure Command where
  program : Text
  usage : Text
  options : List OptionSpec
deriving DecidableEq, Repr

/-- What is wrong with a command line. -/
inductive UsageFault where
  /-- An abbreviation of several options. -/
  | ambiguous (argument : Text) (spellings : List Text)
  /-- An option without the value that it takes. -/
  | missingValue (option : OptionSpec)
  /-- An option with a value that it does not take. -/
  | unusedValue (option : OptionSpec) (value : Text)
  /-- A subcommand that there is not. -/
  | unknownCommand (name : Text) (known : List Text)
  /-- Arguments that mean nothing. -/
  | unrecognized (arguments : List Text)
deriving DecidableEq, Repr

/-- How a message names an option. -/
def OptionSpec.title (o : OptionSpec) : Text :=
  Text.join "/" o.spellings

/-- What is said about a command line. -/
def UsageFault.message : UsageFault → Text
  | .ambiguous argument spellings =>
    ("ambiguous option: " : Text) ++ argument ++ " could match " ++ Text.join ", " spellings
  | .missingValue option => ("argument " : Text) ++ option.title ++ ": expected one argument"
  | .unusedValue option value =>
    ("argument " : Text) ++ option.title ++ ": ignored explicit argument " ++ value.quoted
  | .unknownCommand name known =>
    ("argument command: invalid choice: " : Text) ++ name.quoted ++ " (choose from "
      ++ Text.join ", " (known.map Text.quoted) ++ ")"
  | .unrecognized arguments => ("unrecognized arguments: " : Text) ++ Text.join " " arguments

/-- What an argument is. -/
inductive ArgumentKind where
  /-- A word that is no option. -/
  | word
  /-- The first argument of two dashes, behind which everything is a word. -/
  | separator
  /-- An option, with the value that is in the same argument. -/
  | option (spec : OptionSpec) (spelling : Text) (value : Option Text)
  /-- Something that looks like an option. -/
  | unknown
deriving DecidableEq, Repr

/-- An argument and what it is. -/
abbrev Argument := Text × ArgumentKind

/-- Whether an argument is a number below zero, which is a word. -/
def isNegativeNumber (t : Text) : Bool :=
  match t with
  | '-' :: r =>
    match Text.cutAt '.' r with
    | none => !r.isEmpty && r.all isDecimal
    | some (whole, fraction) =>
      whole.all isDecimal && !fraction.isEmpty && fraction.all isDecimal
  | _ => false

namespace Command

/-- The spellings of all options. -/
def spellings (c : Command) : List (Text × OptionSpec) :=
  c.options.flatMap fun o => o.spellings.map fun s => (s, o)

/-- What an argument can stand for as an abbreviation, or as an option of one letter with its value
behind it. -/
def readings (c : Command) (argument : Text) : List (OptionSpec × Text × Option Text) :=
  if argument.startsWith "--" then
    let (start, value) : Text × Option Text := match Text.cutAt '=' argument with
      | some (s, v) => (s, some v)
      | none => (argument, none)
    (c.spellings.filter fun s => s.1.startsWith start).map fun (s, o) => (o, s, value)
  else
    c.spellings.filterMap fun (s, o) =>
      if s == argument.take 2 then some (o, s, some (argument.drop 2))
      else if s.startsWith argument then some (o, s, none)
      else none

/-- What one argument is. -/
def classifyOne (c : Command) (argument : Text) : Except UsageFault ArgumentKind :=
  if !argument.startsWith "-" then .ok .word
  else
    match c.spellings.lookup argument with
    | some o => .ok (.option o argument none)
    | none =>
      if argument.length == 1 then .ok .word
      else
        let assigned := (Text.cutAt '=' argument).bind fun (s, v) =>
          (c.spellings.lookup s).map fun o => ArgumentKind.option o s (some v)
        match assigned with
        | some kind => .ok kind
        | none =>
          match c.readings argument with
          | [(o, s, v)] => .ok (.option o s v)
          | [] =>
            if isNegativeNumber argument || argument.contains ' ' then .ok .word else .ok .unknown
          | several => .error (.ambiguous argument (several.map fun r => r.2.1))

/-- What all arguments are. -/
def classify (c : Command) : List Text → Except UsageFault (List Argument)
  | [] => .ok []
  | a :: r =>
    if a == "--" then .ok ((a, .separator) :: r.map fun w => (w, .word))
    else do
      let kind ← c.classifyOne a
      let rest ← c.classify r
      pure ((a, kind) :: rest)

end Command

/-- What reading options comes upon. -/
inductive OptionEvent where
  | option (spec : OptionSpec) (value : Option Text)
  | extra (argument : Text)
  | fault (f : UsageFault)
deriving DecidableEq, Repr

namespace Command

/-- The options in one argument, given the first one and the text behind it: one option with its
value, or letters that stand together, each of which has to be an option. Gives the options that are
settled, and the last one if nothing is behind it. -/
def settle (c : Command) (letters : Bool) (o : OptionSpec) (value : Text) :
    Except UsageFault (List OptionEvent × Option OptionSpec) :=
  if o.takesValue then .ok ([.option o (some value)], none)
  else if !letters then .error (.unusedValue o value)
  else
    match value with
    | [] => .error (.unusedValue o [])
    | letter :: r =>
      match c.spellings.lookup ['-', letter] with
      | none => .error (.unusedValue o (letter :: r))
      | some next =>
        if r.isEmpty then .ok ([.option o none], some next)
        else (c.settle letters next r).map fun (es, last) => (.option o none :: es, last)

/-- Reads options. At a word it stops, or goes on and counts the word as extra. An option that
waits for its value is `pending`. -/
def readOptions (c : Command) (stop : Bool) : (pending : Option OptionSpec) → List Argument →
    List OptionEvent × List Argument
  | some o, [] => ([.fault (.missingValue o)], [])
  | none, [] => ([], [])
  | some o, (a, kind) :: r =>
    if kind == .word then
      let (es, rest) := c.readOptions stop none r
      (.option o (some a) :: es, rest)
    else ([.fault (.missingValue o)], [])
  | none, (a, kind) :: r =>
    match kind with
    | .word | .separator =>
      if stop then ([], (a, kind) :: r)
      else
        let (es, rest) := c.readOptions stop none r
        (.extra a :: es, rest)
    | .unknown =>
      let (es, rest) := c.readOptions stop none r
      (.extra a :: es, rest)
    | .option o spelling value =>
      let settled := match value with
        | some v => c.settle (!spelling.startsWith "--") o v
        | none => .ok ([], some o)
      match settled with
      | .error f => ([.fault f], [])
      | .ok (done, last) =>
        match last with
        | none =>
          let (es, rest) := c.readOptions stop none r
          (done ++ es, rest)
        | some o =>
          if o.takesValue then
            let (es, rest) := c.readOptions stop (some o) r
            (done ++ es, rest)
          else
            let (es, rest) := c.readOptions stop none r
            (done ++ .option o none :: es, rest)

end Command

end Sharpen
