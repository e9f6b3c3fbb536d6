import Sharpen.Settings.Basic
import Sharpen.Text.Bytes
import Sharpen.Text.Lower
import Sharpen.Yaml.Document

/-!
# Reading settings

Settings are a mapping in a file. A setting that is missing, or whose value has no use as that
setting, keeps its default; only the type map and the line ending refuse values.

Values are taken as they are meant: a switch may be given by a word, and a single text stands for a
list of one. A document that cannot be read, one that is no mapping, an entry of the type map
without a text and an unknown line ending are refused, each with a reason of its own. Of other
values that are not understood nothing is said.

## Main definitions

* `SettingsError.message` says why settings are refused.
* `Settings.ofValue` takes settings from a value, `Settings.ofText` from the text of a file.
* `SettingsError` says why settings are refused.
* `lineEndings` is the line endings by name.
* `Value.entries` is the entries of a mapping.
* `putText` is a mapping from text to text with one more entry.
-/

namespace Sharpen

/-- The name of the file with the settings of a directory. -/
def settingsFileName : Text :=
  ".cpp2cs.yml"

/-- Why settings are refused. -/
inductive SettingsError where
  /-- The text of the file is no document. -/
  | syntaxError (file : Text)
  /-- The document is no mapping. -/
  | notMapping
  /-- The entry of a key in the type map has no text. -/
  | typeMapEntry (key : Text)
  /-- There is no line ending of that name. -/
  | lineEnding (name : Text)
deriving DecidableEq, Repr

/-- The line endings by name. -/
def lineEndings : List (Text × Text) :=
  [("crlf", "\r\n"), ("lf", "\n")]

/-- The message of an error. -/
def SettingsError.message : SettingsError → Text
  | .syntaxError file => ("Failed to parse " : Text) ++ file
  | .notMapping => settingsFileName ++ " must contain a mapping at the root"
  | .typeMapEntry key => ("type_map entry for " : Text) ++ key ++ " must be a string"
  | .lineEnding name =>
    ("line_ending must be one of [" : Text) ++ Text.join ", " (lineEndings.map fun e => e.1.quoted)
      ++ "], got " ++ name.quoted

/-! ### Values as settings -/

namespace Value

/-- A truth value, or a word for one. -/
def switch? : Value → Option Bool
  | .bool b => some b
  | .text t =>
    let word := t.trim.lower
    if (["true", "yes", "1"] : List Text).contains word then some true
    else if (["false", "no", "0"] : List Text).contains word then some false
    else none
  | _ => none

/-- The texts of a list; a single text is a list of its own. -/
def texts : Value → List Text
  | .text t => [t]
  | .list items => items.filterMap text?
  | _ => []

/-- The entries of a mapping. -/
def entries : Value → List (Value × Value)
  | .map es => es
  | _ => []

end Value

/-- A mapping from text to text with one more entry. A key that is there already keeps its place
and takes the new value. -/
def putText (m : TypeMap) (key value : Text) : TypeMap :=
  if m.any fun e => e.1 == key then m.map fun e => if e.1 == key then (key, value) else e
  else m ++ [(key, value)]

/-- The type map of a mapping, each value of which must have a text. -/
def typeMapOf (entries : List (Value × Value)) : Except SettingsError TypeMap :=
  entries.foldlM (fun m e =>
    match e.2.text? with
    | some t => .ok (putText m e.1.keyText t)
    | none => .error (.typeMapEntry e.1.shown)) []

/-- The line ending of that name, in letters of either case. -/
def lineEndingOf (name : Text) : Except SettingsError Text :=
  match lineEndings.lookup name.lower with
  | some ending => .ok ending
  | none => .error (.lineEnding name.lower)

namespace Settings

/-- The text of a setting, unless it is empty. -/
def textOf? (entries : List (Value × Value)) (key : Text) : Option Text :=
  ((Value.get? entries key).bind Value.text?).filter (!·.isEmpty)

/-- The texts of a setting. -/
def textsOf (entries : List (Value × Value)) (key : Text) : List Text :=
  ((Value.get? entries key).map Value.texts).getD []

/-- The truth value of a setting. -/
def switchOf? (entries : List (Value × Value)) (key : Text) : Option Bool :=
  (Value.get? entries key).bind Value.switch?

/-- The settings of a mapping. -/
def ofEntries (entries : List (Value × Value)) : Except SettingsError Settings := do
  let d : Settings := {}
  let typeMap ← typeMapOf (((Value.get? entries "type_map").map Value.entries).getD [])
  let lineEnding ← lineEndingOf ((textOf? entries "line_ending").getD "lf")
  let scope : NamespaceSettings :=
    { name := (textOf? entries "namespace").getD d.scope.name
      fileScoped := (switchOf? entries "file_scoped_namespace").getD d.scope.fileScoped
      usings := textsOf entries "usings"
      interfaceUsings := (Value.get? entries "interface_usings").map Value.texts }
  pure
    { scope := scope
      outputSubdir := (textOf? entries "output_subdir").getD d.outputSubdir
      excludePaths := textsOf entries "exclude_paths"
      typeMap := typeMap
      createAttribute := (switchOf? entries "create_attribute").getD d.createAttribute
      lineEnding := lineEnding }

/-- The settings of a value. A value that says nothing sets nothing. -/
def ofValue (v : Value) : Except SettingsError Settings :=
  if v.isVoid then ofEntries []
  else
    match v with
    | .map entries => ofEntries entries
    | _ => .error .notMapping

/-- The settings of a file with the given name and text. A blank text sets nothing. -/
def ofText (file text : Text) : Except SettingsError Settings :=
  if text.isBlank then ofEntries []
  else
    match Value.ofYaml? text.normalizeNewlines with
    | some v => ofValue v
    | none => .error (.syntaxError file)

end Settings

end Sharpen
