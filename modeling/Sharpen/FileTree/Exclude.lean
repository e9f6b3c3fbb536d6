import Sharpen.FileTree.Glob
import Sharpen.Text.Blank

/-!
# Exclusion

Patterns say which files and folders are left out. A pattern with a slash is matched with the whole
path, and what lies below a path is excluded with it; any other pattern is matched with each part of
the path. A slash at the end restricts a pattern to folders.

Blanks around a pattern and slashes in front of it mean nothing, and a pattern that is empty without
them has no rule. A path is excluded if one rule matches it, whatever the others say; there is no
way to take an exclusion back.

## Main definitions

* `ExcludeRule.ofPattern?` reads a pattern; `ExcludeRule.excludes` applies it.
* `ExcludeRule` is a rule that excludes paths.
* `ExcludeRule.ofPatterns` is the rules of patterns.
* `isExcluded` says whether one of the rules excludes a path.
-/

namespace Sharpen

/-- A rule that excludes paths. -/
structure ExcludeRule where
  pattern : Text
  foldersOnly : Bool
  /-- Whether the pattern is matched with the whole path. -/
  wholePath : Bool
deriving DecidableEq, Repr

namespace ExcludeRule

/-- The rule of a pattern; an empty pattern has none. -/
def ofPattern? (pattern : Text) : Option ExcludeRule :=
  let p : Text := pattern.trim.dropWhile (· == '/')
  if p.isEmpty then none
  else
    let foldersOnly := p.endsWith "/"
    let p := if foldersOnly then p.dropLast else p
    some { pattern := p, foldersOnly := foldersOnly, wholePath := p.contains '/' }

/-- The rules of patterns. -/
def ofPatterns (patterns : List Text) : List ExcludeRule :=
  patterns.filterMap ofPattern?

/-- Whether a rule excludes a path. -/
def excludes (rule : ExcludeRule) (path : Text) (isFolder : Bool) : Bool :=
  let glob := Glob.ofText rule.pattern
  (isFolder || !rule.foldersOnly) &&
    if rule.wholePath then glob.accepts path || path.startsWith (rule.pattern ++ "/")
    else (Text.splitOn '/' path).any glob.accepts

end ExcludeRule

/-- Whether one of the rules excludes a path. -/
def isExcluded (rules : List ExcludeRule) (path : Text) (isFolder : Bool) : Bool :=
  rules.any fun r => r.excludes path isFolder

end Sharpen
