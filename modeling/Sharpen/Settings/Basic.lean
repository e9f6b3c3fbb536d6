import Sharpen.CSharp.Expression

/-!
# Settings

What can be set for a conversion, with what holds when nothing is set.

A namespace may have a mark in it that stands for the name of the file. The lists of namespaces that
files open differ for files with interfaces only. All of it can be left out, and then the defaults
are used, which are the values given here.

## Main definitions

* `NamespaceSettings.resolve` gives the namespace of a file.
* `Settings` are all settings.
* `NamespaceSettings` says how generated files open their namespace, and what they use.
* `NamespaceSettings.fileMark` is the mark in a namespace that stands for the name of the file.
* `NamespaceSettings.usingsFor` is what a file uses.
-/

namespace Sharpen

/-- How generated files open their namespace, and what they use. -/
structure NamespaceSettings where
  /-- The namespace, with a mark where the name of the file goes. -/
  name : Text := "Generated_\x7bfile\x7d"
  /-- Whether the namespace is declared for the whole file, without braces. -/
  fileScoped : Bool := false
  usings : List Text := []
  /-- What files use that hold interfaces only, if that differs. -/
  interfaceUsings : Option (List Text) := none
deriving DecidableEq, Repr

namespace NamespaceSettings

/-- The mark in a namespace that stands for the name of the file. -/
def fileMark : Text :=
  "\x7bfile\x7d"

/-- The namespace of a file. -/
def resolve (n : NamespaceSettings) (file : Text) : Text :=
  Text.replaceAll n.name fileMark file

/-- What a file uses. -/
def usingsFor (n : NamespaceSettings) (interfacesOnly : Bool) : List Text :=
  if interfacesOnly then n.interfaceUsings.getD n.usings else n.usings

end NamespaceSettings

/-- All settings of a conversion. -/
structure Settings where
  scope : NamespaceSettings := {}
  /-- The directory for generated files, below the source directory. -/
  outputSubdir : Text := "converted"
  excludePaths : List Text := []
  typeMap : TypeMap := []
  /-- Whether interfaces name the type that implements them. -/
  createAttribute : Bool := true
  lineEnding : Text := "\n"
deriving DecidableEq, Repr

end Sharpen
