import Sharpen.Header.Scan
import Sharpen.Plan.Files
import Sharpen.Source.Scan

/-!
# Planning from texts

Headers and sources are read each on its own, in the order of their paths, and the plan is made of
what was read. The records of all readers come before those of the plan.

## Main definitions

* `Plan.ofTexts` makes the plan for header and source texts, each given with its path.
* `readTexts` reads texts one after the other and gathers the records.
* `sortTexts` are named texts by path.
-/

namespace Sharpen

/-- A path with the text of its file. -/
abbrev NamedText := Text × Text

/-- Reads texts one after the other and gathers the records. -/
def readTexts {α : Type} (read : Text → Text → α × List Record) :
    List NamedText → List α × List Record
  | [] => ([], [])
  | (path, text) :: r =>
    let (a, records) := read text path
    let (as, more) := readTexts read r
    (a :: as, records ++ more)

/-- Named texts by path. -/
def sortTexts (texts : List NamedText) : List NamedText :=
  texts.mergeSort fun a b => Text.precedes a.1 b.1

/-- The plan for header and source texts, read in the order of their paths, and all records. -/
def Plan.ofTexts (headers sources : List NamedText) : Plan × List Record :=
  let (hs, headerRecords) := readTexts parseHeader (sortTexts headers)
  let (ss, sourceRecords) := readTexts parseSource (sortTexts sources)
  let plan := Plan.ofParts hs ss
  (plan, headerRecords ++ sourceRecords ++ plan.notices.map PlanNotice.toRecord)

end Sharpen
