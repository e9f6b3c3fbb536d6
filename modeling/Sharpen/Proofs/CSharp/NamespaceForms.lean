import Mathlib.Data.List.DropRight
import Sharpen.CSharp.File
import Sharpen.Proofs.CSharp.Reindent

/-!
# The Two Forms of a Namespace

A namespace is declared for the whole file or opened with braces. In the second form the writer puts
everything one level further in. This module runs both writers side by side: whatever is written for
a type, one of them has the lines of the other with four more spaces in front.

The two are not in step from the start. Behind its head the first one has an empty line and the
second one a brace, and `Writer.blank` and `Writer.trimBlank` look at the last line. So the relation
comes in two strengths, and in the second of them blanks do not see the heads any more. Every
operation of the writer keeps the second relation, hence everything that is made of these operations
does, and what writes a whole type leads from the first relation to the second.

## Main definitions

* `Writer.InStep` — the lines behind the two heads correspond.
* `Writer.Started` — and one of them is not empty.
* `deeperLine` — a line with four more spaces in front; an empty line stays empty.
* `Settings.inForm` — the settings with the namespace in the given form.
* `bufferText` — the text of a buffer: its lines, each with a line ending.

## Main results

* `reindent_succ` — a block one level further in.
* `Writer.InStep.interface`, `Writer.InStep.classSection` — whole types, as the lemmas before them
  for their parts.
* `forms_agree` — the buffers of a file in the two forms, for every plan.
-/

namespace Sharpen

/-! ### Lines one level further in -/

/-- A line with four more spaces in front; an empty line stays empty. -/
def deeperLine (l : Text) : Text :=
  if l.isEmpty then [] else List.replicate 4 ' ' ++ l

@[simp]
theorem deeperLine_nil : deeperLine [] = [] :=
  rfl

/-- A line that is not empty gets four spaces. -/
theorem deeperLine_of_ne_nil {l : Text} (h : l ≠ []) :
    deeperLine l = List.replicate 4 ' ' ++ l := by
  simp [deeperLine, h]

/-- No line becomes empty or ceases to be. -/
@[simp]
theorem isEmpty_deeperLine (l : Text) : (deeperLine l).isEmpty = l.isEmpty := by
  cases l <;> rfl

/-- No line becomes blank or ceases to be. -/
theorem isBlank_deeperLine (l : Text) : (deeperLine l).isBlank = l.isBlank :=
  isBlank_indentLine 4 l

/-- One more level is four more spaces. -/
theorem levelWidth_succ {level : Int} (h : 0 ≤ level) :
    levelWidth (level + 1) = 4 + levelWidth level := by
  rw [levelWidth, levelWidth, indentUnit]
  omega

/-- The indentation of one more level has four more spaces. -/
theorem indentation_succ {level : Int} (h : 0 ≤ level) :
    indentation (level + 1) = List.replicate 4 ' ' ++ indentation level :=
  (congrArg (List.replicate · ' ') (levelWidth_succ h)).trans (List.replicate_add ..)

/-- **A block one level further in** has the same lines with four more spaces. This needs a level
with an indentation: the blank lines of a block have exactly that, so they are never empty. -/
theorem reindent_succ (t : Text) {level : Int} (h : 1 ≤ level) :
    reindent t (level + 1) = (reindent t level).map deeperLine := by
  have hlevel : 0 ≤ level := by omega
  have hlead : indentation level ≠ [] := by
    simp only [indentation, indentUnit, ne_eq, List.replicate_eq_nil_iff]
    omega
  have hblank : indentation (level + 1) = deeperLine (indentation level) := by
    rw [deeperLine_of_ne_nil hlead, indentation_succ hlevel]
  have hline : indentLine (levelWidth (level + 1))
      = deeperLine ∘ indentLine (levelWidth level) := by
    rw [levelWidth_succ hlevel]
    exact funext (indentLine_add 4 _)
  rw [reindent_eq, reindent_eq, hblank, hline, ← List.map_map]
  exact collapseFrom_map _ _ isBlank_deeperLine _

/-! ### Two writers side by side -/

namespace Writer

/-- Behind `flatHead` and `bracedHead`, the second writer has the lines of the first one, each
four spaces further in. -/
structure InStep (flatHead bracedHead : List Text) (flat braced : Writer) : Prop where
  flat_shift : flat.shift = -1
  braced_shift : braced.shift = 0
  lines : ∃ body, flat.lines = flatHead ++ body ∧
    braced.lines = bracedHead ++ body.map deeperLine

/-- The same, when a line that is not empty has been written behind the heads. -/
structure Started (flatHead bracedHead : List Text) (flat braced : Writer) : Prop where
  flat_shift : flat.shift = -1
  braced_shift : braced.shift = 0
  lines : ∃ body, (∃ l ∈ body, l ≠ []) ∧ flat.lines = flatHead ++ body ∧
    braced.lines = bracedHead ++ body.map deeperLine

variable {flatHead bracedHead : List Text} {flat braced : Writer}

/-- Writers that have a line behind the heads are in step. -/
theorem Started.inStep (h : Started flatHead bracedHead flat braced) :
    InStep flatHead bracedHead flat braced := by
  obtain ⟨body, -, hlines⟩ := h.lines
  exact ⟨h.flat_shift, h.braced_shift, body, hlines⟩

/-- A line below the outermost level, as a line that is added at the end. -/
theorem line_lines (w : Writer) (t : Text) {level : Int} (h : 1 ≤ level) :
    (w.line t level).lines
      = w.lines ++ [if t.isEmpty then [] else indentation (level + w.shift) ++ t] := by
  simp only [line, indent]
  rw [if_pos (by omega : 0 < level)]

section InStep

variable (h : InStep flatHead bracedHead flat braced)

include h

/-- More lines that correspond. -/
theorem InStep.append {flat' braced' : Writer} (ls : List Text)
    (hflat : flat'.lines = flat.lines ++ ls)
    (hbraced : braced'.lines = braced.lines ++ ls.map deeperLine)
    (hshift : flat'.shift = flat.shift) (hshift' : braced'.shift = braced.shift) :
    InStep flatHead bracedHead flat' braced' := by
  obtain ⟨body, hs, hb⟩ := h.lines
  refine ⟨hshift.trans h.flat_shift, hshift'.trans h.braced_shift, body ++ ls, ?_, ?_⟩
  · rw [hflat, hs, List.append_assoc]
  · rw [hbraced, hb, List.map_append, List.append_assoc]

/-- What one line adds to the two writers. -/
theorem InStep.line_eq (t : Text) {level : Int} (hlevel : 1 ≤ level) :
    ∃ l, (t ≠ [] → l ≠ []) ∧ (flat.line t level).lines = flat.lines ++ [l] ∧
      (braced.line t level).lines = braced.lines ++ [l].map deeperLine := by
  rw [line_lines _ _ hlevel, line_lines _ _ hlevel, h.flat_shift, h.braced_shift]
  refine ⟨_, ?_, rfl, ?_⟩
  · intro ht
    simp [ht]
  · cases t with
    | nil => rfl
    | cons c r =>
        have hindent := indentation_succ (show 0 ≤ level + -1 by omega)
        rw [show level + -1 + 1 = level by omega] at hindent
        simp [deeperLine, hindent]

/-- A line. -/
theorem InStep.line (t : Text) {level : Int} (hlevel : 1 ≤ level) :
    InStep flatHead bracedHead (flat.line t level) (braced.line t level) := by
  obtain ⟨l, -, hs, hb⟩ := h.line_eq t hlevel
  exact h.append [l] hs hb rfl rfl

/-- Several lines. -/
theorem InStep.lineAll (ts : List Text) {level : Int} (hlevel : 1 ≤ level) :
    InStep flatHead bracedHead (flat.lineAll ts level) (braced.lineAll ts level) := by
  induction ts generalizing flat braced with
  | nil => exact h
  | cons t r ih => exact ih (h.line t hlevel)

/-- A line that is not empty: from here on the heads are out of sight. -/
theorem InStep.start {t : Text} (ht : t ≠ []) {level : Int} (hlevel : 1 ≤ level) :
    Started flatHead bracedHead (flat.line t level) (braced.line t level) := by
  obtain ⟨l, hl, hs, hb⟩ := h.line_eq t hlevel
  obtain ⟨body, hs', hb'⟩ := h.lines
  refine ⟨h.flat_shift, h.braced_shift, body ++ [l], ⟨l, by simp, hl ht⟩, ?_, ?_⟩
  · rw [hs, hs', List.append_assoc]
  · rw [hb, hb', List.map_append, List.append_assoc]

end InStep

/-! ### What every operation keeps -/

section Started

variable (h : Started flatHead bracedHead flat braced)

include h

/-- More lines that correspond. -/
theorem Started.append {flat' braced' : Writer} (ls : List Text)
    (hflat : flat'.lines = flat.lines ++ ls)
    (hbraced : braced'.lines = braced.lines ++ ls.map deeperLine)
    (hshift : flat'.shift = flat.shift) (hshift' : braced'.shift = braced.shift) :
    Started flatHead bracedHead flat' braced' := by
  obtain ⟨body, ⟨l, hl, hne⟩, hs, hb⟩ := h.lines
  refine ⟨hshift.trans h.flat_shift, hshift'.trans h.braced_shift, body ++ ls,
    ⟨l, List.mem_append_left ls hl, hne⟩, ?_, ?_⟩
  · rw [hflat, hs, List.append_assoc]
  · rw [hbraced, hb, List.map_append, List.append_assoc]

/-- A line. -/
theorem Started.line (t : Text) {level : Int} (hlevel : 1 ≤ level) :
    Started flatHead bracedHead (flat.line t level) (braced.line t level) := by
  obtain ⟨l, -, hs, hb⟩ := h.inStep.line_eq t hlevel
  exact h.append [l] hs hb rfl rfl

/-- A block, which is written at the level of members or deeper. -/
theorem Started.block (t : Text) {level : Int} (hlevel : 2 ≤ level) :
    Started flatHead bracedHead (flat.block t level) (braced.block t level) := by
  refine h.append (reindent t (level + -1)) ?_ ?_ rfl rfl
  · have hmax : max (level + -1) 0 = level + -1 := by omega
    rw [Writer.block, h.flat_shift, hmax]
  · have hmax : max (level + 0) 0 = level + -1 + 1 := by omega
    rw [Writer.block, h.braced_shift, hmax, ← reindent_succ t (by omega)]

/-- An empty line, unless the last line is one. -/
theorem Started.blank : Started flatHead bracedHead flat.blank braced.blank := by
  obtain ⟨body, ⟨l, hl, -⟩, hs, hb⟩ := h.lines
  have hne : body ≠ [] := List.ne_nil_of_mem hl
  have hlast : flat.lines.getLast? = some (body.getLast hne) := by
    rw [hs, List.getLast?_append, List.getLast?_eq_getLast_of_ne_nil hne]
    rfl
  have hlast' : braced.lines.getLast? = some (deeperLine (body.getLast hne)) := by
    rw [hb, List.getLast?_append, List.getLast?_map, List.getLast?_eq_getLast_of_ne_nil hne]
    rfl
  rw [Writer.blank, Writer.blank, hlast, hlast']
  cases body.getLast hne with
  | nil => exact h
  | cons c r => exact h.append [[]] rfl rfl rfl rfl

/-- Taking back the empty lines at the end. -/
theorem Started.trimBlank :
    Started flatHead bracedHead flat.trimBlank braced.trimBlank := by
  obtain ⟨body, ⟨l, hl, hne⟩, hs, hb⟩ := h.lines
  have hkeep : body.reverse.dropWhile List.isEmpty ≠ [] := by
    rw [ne_eq, List.dropWhile_eq_nil_iff]
    intro hall
    exact hne (List.isEmpty_iff.mp (hall l (List.mem_reverse.mpr hl)))
  have hmap : (body.map deeperLine).reverse.dropWhile List.isEmpty
      = (body.reverse.dropWhile List.isEmpty).map deeperLine := by
    rw [← List.map_reverse, List.dropWhile_map]
    congr 2
    exact funext isEmpty_deeperLine
  refine ⟨h.flat_shift, h.braced_shift, (body.reverse.dropWhile List.isEmpty).reverse, ?_, ?_, ?_⟩
  · refine ⟨(body.reverse.dropWhile List.isEmpty).head hkeep, ?_, ?_⟩
    · exact List.mem_reverse.mpr (List.head_mem hkeep)
    · have hhead := List.head_dropWhile_not List.isEmpty hkeep
      intro hnil
      rw [hnil] at hhead
      cases hhead
  · rw [Writer.trimBlank, hs, List.reverse_append, List.dropWhile_append]
    simp [hkeep]
  · rw [Writer.trimBlank, hb, List.reverse_append, List.dropWhile_append, hmap]
    simp [hkeep]

/-- Steps that keep the relation, one after the other. -/
theorem Started.foldl {α : Type} {f : Writer → α → Writer}
    (hstep : ∀ {flat braced : Writer} (a : α), Started flatHead bracedHead flat braced →
      Started flatHead bracedHead (f flat a) (f braced a)) (as : List α) :
    Started flatHead bracedHead (as.foldl f flat) (as.foldl f braced) := by
  induction as generalizing flat braced with
  | nil => exact h
  | cons a r ih => exact ih (hstep a h)

/-- Several lines. -/
theorem Started.lineAll (ts : List Text) {level : Int} (hlevel : 1 ≤ level) :
    Started flatHead bracedHead (flat.lineAll ts level) (braced.lineAll ts level) :=
  h.foldl (fun t h => h.line t hlevel) ts

/-- One of two ways to go on. -/
theorem Started.ite {c : Prop} [Decidable c] {flat' braced' : Writer}
    (h' : Started flatHead bracedHead flat' braced') :
    Started flatHead bracedHead (if c then flat else flat') (if c then braced else braced') := by
  split
  · exact h
  · exact h'

/-- An empty line on a condition. -/
theorem Started.blankIf (condition : Prop) [Decidable condition] :
    Started flatHead bracedHead (if condition then flat.blank else flat)
      (if condition then braced.blank else braced) :=
  h.blank.ite h

/-! ### Members and constants -/

/-- The marker that opens a region. -/
theorem Started.regionStart (marker : Text) {level : Int} (hlevel : 1 ≤ level) :
    Started flatHead bracedHead (flat.regionStart marker level)
      (braced.regionStart marker level) := by
  rw [Writer.regionStart, Writer.regionStart]
  split
  · exact h
  · exact (h.blank.line marker hlevel).line [] hlevel

/-- The marker that ends a region. -/
theorem Started.regionEnd (marker : Text) {level : Int} (hlevel : 1 ≤ level) :
    Started flatHead bracedHead (flat.regionEnd marker level) (braced.regionEnd marker level) := by
  rw [Writer.regionEnd, Writer.regionEnd]
  split
  · exact h
  · exact h.blank.line marker hlevel

/-- A member. -/
theorem Started.member (types : TypeMap) (m : Member) {level : Int} (hlevel : 2 ≤ level) :
    Started flatHead bracedHead (flat.member types m level) (braced.member types m level) := by
  have hline : 1 ≤ level := by omega
  simp only [Writer.member]
  refine Started.regionEnd ?_ _ hline
  have hopen := (h.regionStart m.regionStart hline).lineAll m.comments hline
  split
  · split
    · exact hopen.line _ hline
    · exact (hopen.line _ hline).block _ hlevel
  · split
    · exact (hopen.line _ hline).block _ (by omega)
    · exact ((hopen.line _ hline).block _ hlevel).block _ (by omega)

/-- Constants. -/
theorem Started.constants (cs : List Constant) (access? : Option Text) {level : Int}
    (hlevel : 1 ≤ level) :
    Started flatHead bracedHead (flat.constants cs level access?)
      (braced.constants cs level access?) :=
  h.foldl (fun c h => ((h.blankIf _).lineAll c.1.comments hlevel).line _ hlevel) _

/-! ### Methods -/

/-- The lines of a signature. -/
theorem Started.signature (lines : List Text) (ending : Text) {level : Int} (hlevel : 1 ≤ level) :
    Started flatHead bracedHead (flat.signature lines level ending)
      (braced.signature lines level ending) := by
  refine h.foldl (fun _ h => ?_) _
  simp only [signatureLine]
  split
  · exact h.line _ (by omega)
  · exact h.line _ hlevel

/-- What is between the braces of a method. -/
theorem Started.bodyLines (m : Method) (body? : Option Text) {level : Int} (hlevel : 2 ≤ level) :
    Started flatHead bracedHead (flat.bodyLines m body? level)
      (braced.bodyLines m body? level) := by
  have hline : 1 ≤ level := by omega
  have hinit := h.lineAll
    (m.initializers.map fun i => i.name ++ " = " ++ convertValue i.value ++ ";") hline
  simp only [Writer.bodyLines]
  split
  · split
    · exact hinit
    · exact hinit.block _ hlevel
  · split
    · split
      · exact hinit.line _ hline
      · exact hinit
    · exact hinit.lineAll _ hline

/-- The body of a method in braces. -/
theorem Started.body (m : Method) (body? : Option Text) {level : Int} (hlevel : 1 ≤ level) :
    Started flatHead bracedHead (flat.body m body? level) (braced.body m body? level) :=
  ((h.line _ hlevel).bodyLines m _ (by omega)).line _ hlevel

/-- Signature and body. -/
theorem Started.definition (types : TypeMap) (m : Method) (owner : Text) {level : Int}
    (hlevel : 1 ≤ level) :
    Started flatHead bracedHead (flat.definition types m owner level)
      (braced.definition types m owner level) := by
  simp only [Writer.definition]
  split
  · exact h.line _ hlevel
  · exact (h.signature _ _ hlevel).body m _ hlevel

/-- A method with its comments and regions. -/
theorem Started.method (types : TypeMap) (m : Method) (owner : Text) {level : Int}
    (hlevel : 1 ≤ level) :
    Started flatHead bracedHead (flat.method types m owner level)
      (braced.method types m owner level) := by
  have hregions := (h.regionStart m.sourceRegionStart hlevel).regionStart m.headerRegionStart hlevel
  have hcomments := (hregions.lineAll m.headerComments hlevel).lineAll m.sourceComments hlevel
  have hcode := hcomments.definition types m owner hlevel
  exact (hcode.regionEnd m.headerRegionEnd hlevel).regionEnd m.sourceRegionEnd hlevel

/-! ### Classes -/

/-- The constants and members of a class. -/
theorem Started.classData (types : TypeMap) (d : TypeDecl) {level : Int} (hlevel : 2 ≤ level) :
    Started flatHead bracedHead (flat.classData types d level)
      (braced.classData types d level) := by
  simp only [Writer.classData]
  refine Started.foldl ?_ (fun m h => h.member types m hlevel) _
  split
  · exact h
  · exact (h.constants _ _ (by omega)).blank

/-- The methods of a part of a class. -/
theorem Started.classMethods (types : TypeMap) (methods : List Method) (owner : Text)
    (afterData : Bool) {level : Int} (hlevel : 1 ≤ level) :
    Started flatHead bracedHead (flat.classMethods types methods owner afterData level)
      (braced.classMethods types methods owner afterData level) := by
  refine h.foldl (fun (m, i) h => ?_) _
  exact (h.blankIf ((afterData || decide (0 < i)) = true)).method types m owner hlevel

/-! ### Interfaces -/

/-- A static method of an interface. -/
theorem Started.extension (types : TypeMap) (d : TypeDecl) (implementing : Option Text)
    (implementations : List Method) (m : Method) {level : Int} (hlevel : 1 ≤ level) :
    Started flatHead bracedHead (flat.extension types d implementing implementations m level)
      (braced.extension types d implementing implementations m level) :=
  ((h.lineAll m.headerComments hlevel).signature _ _ hlevel).body m _ hlevel

/-- The class of extensions. -/
theorem Started.extensions (types : TypeMap) (d : TypeDecl) (implementing : Option Text)
    (implementations : List Method) {level : Int} (hlevel : 1 ≤ level) :
    Started flatHead bracedHead (flat.extensions types d implementing implementations level)
      (braced.extensions types d implementing implementations level) := by
  have hopen := (h.line (d.visibility.keyword ++ " static class " ++ d.name ++ "Extensions")
    hlevel).line "\x7b" hlevel
  refine Started.line (hopen.foldl (fun (m, i) h => ?_) _) _ hlevel
  exact (h.blankIf (0 < i)).extension types d implementing implementations m (by omega)

/-- The methods of the contract. -/
theorem Started.contract (types : TypeMap) (d : TypeDecl) {level : Int} (hlevel : 1 ≤ level) :
    Started flatHead bracedHead (flat.contract types d level) (braced.contract types d level) :=
  h.foldl (fun m h => ((h.lineAll m.headerComments hlevel).signature _ _ hlevel).blank) _

end Started

/-! ### Whole types -/

section InStep

variable (h : InStep flatHead bracedHead flat braced)

include h

/-- A part of a class. -/
theorem InStep.classSection (types : TypeMap) (s : Section) {level : Int} (hlevel : 1 ≤ level) :
    Started flatHead bracedHead (flat.classSection types s level)
      (braced.classSection types s level) := by
  have hdecl : classDeclaration s.type s.isPartial ≠ [] := by
    simp only [classDeclaration, withBases]
    split <;> simp
  simp only [Writer.classSection]
  refine Started.line (Started.trimBlank (Started.classMethods ?_ _ _ _ _ (by omega))) _ hlevel
  split
  · have hopen := (h.lineAll s.type.comments hlevel).start hdecl hlevel
    exact (hopen.line _ hlevel).classData types s.type (by omega)
  · exact (h.start hdecl hlevel).line _ hlevel

/-- The attribute that names the type behind an interface. -/
theorem InStep.attribute (implementing : Option Text) (isShown : Bool) {level : Int}
    (hlevel : 1 ≤ level) :
    InStep flatHead bracedHead
      (match implementing with
        | some name =>
          if isShown then flat.line ("[Create(typeof(" ++ name ++ "))]") level else flat
        | none => flat)
      (match implementing with
        | some name =>
          if isShown then braced.line ("[Create(typeof(" ++ name ++ "))]") level else braced
        | none => braced) := by
  cases implementing with
  | none => exact h
  | some name =>
      dsimp only
      split
      · exact h.line _ hlevel
      · exact h

/-- An interface with its extensions. -/
theorem InStep.interface (types : TypeMap) (d : TypeDecl) (implementations : List Method)
    (createAttribute : Bool) {level : Int} (hlevel : 1 ≤ level) :
    Started flatHead bracedHead (flat.interface types d implementations createAttribute level)
      (braced.interface types d implementations createAttribute level) := by
  have hdecl : withBases (d.visibility.keyword ++ " interface " ++ d.name) d.bases ≠ [] := by
    rw [withBases]
    split <;> simp
  have hattribute := (h.lineAll d.comments hlevel).attribute (implementingType? d implementations)
    (createAttribute && d.isExported) hlevel
  have hopen := (hattribute.start hdecl hlevel).line "\x7b" hlevel
  have hconstants := hopen.ite (c := (d.constants.isEmpty || hasConstantsClass d) = true)
    (hopen.constants d.constants (some "internal") (show 1 ≤ level + 1 by omega)).blank
  have hcontract :=
    (hconstants.contract types d (show 1 ≤ level + 1 by omega)).trimBlank.line "\x7d" hlevel
  exact hcontract.ite (c := (staticMethods d).isEmpty = true)
    (hcontract.blank.extensions types d _ implementations hlevel)

/-- The class that holds the constants of an interface. -/
theorem InStep.constantsClass (d : TypeDecl) {level : Int} (hlevel : 1 ≤ level) :
    Started flatHead bracedHead (flat.constantsClass d level) (braced.constantsClass d level) := by
  have hopen := h.start (t := "public static class " ++ constantsClassName d) (by simp) hlevel
  exact ((hopen.line _ hlevel).constants d.constants (some "public") (by omega)).line _ hlevel

/-- Types one after the other, with an empty line behind each: as soon as there is one, the relation
is the strong one. -/
theorem InStep.foldl_blank {α : Type} {f : Writer → α → Writer}
    (hstep : ∀ {flat braced : Writer} (a : α), InStep flatHead bracedHead flat braced →
      Started flatHead bracedHead (f flat a) (f braced a)) {as : List α} (hne : as ≠ []) :
    Started flatHead bracedHead (as.foldl (fun w a => (f w a).blank) flat)
      (as.foldl (fun w a => (f w a).blank) braced) := by
  cases as with
  | nil => exact absurd rfl hne
  | cons a r => exact (hstep a h).blank.foldl (fun a h => (hstep a h.inStep).blank) r

end InStep

/-! ### The ends of a file -/

/-- An empty line does not depend on the shift. -/
theorem blank_shift (w : Writer) (shift : Int) :
    { w with shift := shift }.blank = { w.blank with shift := shift } := by
  simp only [blank]
  split <;> rfl

/-- Lines that are written at level zero do not depend on the shift. -/
theorem lineAll_zero (w : Writer) (shift : Int) (ts : List Text) :
    { w with shift := shift }.lineAll ts 0 = { w.lineAll ts 0 with shift := shift } := by
  induction ts generalizing w with
  | nil => rfl
  | cons t r ih => exact ih (w.line t 0)

/-- Writes what stands before the namespace: banner and usings. -/
def lead (w : Writer) (banner usings : List Text) : Writer :=
  let w := if banner.isEmpty then w else (w.lineAll banner 0).blank
  if usings.isEmpty then w
  else (w.lineAll (usings.map fun u : Text => ("using " : Text) ++ u ++ ";") 0).blank

/-- What stands before the namespace does not depend on the shift. -/
theorem lead_shift (w : Writer) (shift : Int) (banner usings : List Text) :
    { w with shift := shift }.lead banner usings
      = { w.lead banner usings with shift := shift } := by
  simp only [lead]
  split <;> split <;> simp only [lineAll_zero, blank_shift]

/-- Taking back empty lines twice does no more than once. -/
theorem trimBlank_trimBlank (w : Writer) : w.trimBlank.trimBlank = w.trimBlank := by
  simp [trimBlank, List.dropWhile_idempotent]

/-- Behind a line that is not empty there is nothing to take back. -/
theorem trimBlank_of_concat {w : Writer} {ls : List Text} {l : Text} (h : w.lines = ls ++ [l])
    (hl : l ≠ []) : w.trimBlank.lines = w.lines := by
  simp [trimBlank, h, hl]

end Writer

/-! ### Files -/

/-- The settings with the namespace in the given form. -/
def Settings.inForm (s : Settings) (fileScoped : Bool) : Settings :=
  { s with scope := { s.scope with fileScoped := fileScoped } }

/-- The text of a buffer: its lines, each with a line ending. -/
def bufferText (lineEnding : Text) (lines : List Text) : Text :=
  Text.join lineEnding lines ++ lineEnding

/-- The namespace of a file. -/
def namespaceOf (s : Settings) (f : OutputFile) : Text :=
  s.scope.resolve (nonemptyOr f.headerStem f.name)

/-- What a file of a plan uses. -/
def usingsOf (s : Settings) (p : Plan) (f : OutputFile) : List Text :=
  let own := (f.sections.filter fun p => hasConstantsClass p.type).map fun p =>
    constantsUsing s p.type
  let constantUsings := (p.types.filter hasConstantsClass).map (constantsUsing s)
  s.scope.usingsFor f.isInterfaceOnly ++
    (constantUsings.filter fun u => !own.contains u).map (("static " : Text) ++ ·)

/-- Writes the types of a file of a plan. -/
def Writer.fileTypes (w : Writer) (s : Settings) (p : Plan) (f : OutputFile) : Writer :=
  let w := f.embedded.foldl (fun w d => (w.embeddedType s.typeMap d typeLevel).blank) w
  f.sections.foldl (fun w q => (w.typeSection s p.implementations q).blank) w

/-- The buffer of a file of a plan when all is written. -/
def fileLines (s : Settings) (p : Plan) (f : OutputFile) : List Text :=
  let w := (fileWriter s).openFile s f.banner (usingsOf s p f) (namespaceOf s f)
  ((w.fileTypes s p f).closeFile s).trimBlank.lines

/-- The buffer of the file with the constants of an interface when all is written. -/
def constantsLines (s : Settings) (d : TypeDecl) : List Text :=
  let w := (fileWriter s).openFile s [] (s.scope.usingsFor true) (s.scope.resolve d.file)
  ((w.constantsClass d typeLevel).closeFile s).trimBlank.lines

/-- The files of a plan are the texts of these buffers. -/
theorem renderPlan_eq_buffers (s : Settings) (p : Plan) :
    renderPlan s p =
      ((p.files.map fun f => GeneratedFile.mk f.name (bufferText s.lineEnding (fileLines s p f))) ++
        (p.types.filter hasConstantsClass).map fun d =>
          GeneratedFile.mk (constantsClassName d)
            (bufferText s.lineEnding (constantsLines s d))).mergeSort
        fun a b => Text.precedes a.name b.name :=
  rfl

/-- **The two forms of a file.** Before the namespace there are the same lines, `before`. The form
without braces goes on with an empty line and with `body`; the form with braces has the lines of
`body` four spaces further in, and a closing brace behind them. A file without a body ends with its
namespace in the first form, for empty lines at the end of a file are always taken back. -/
structure InBothForms (scope : Text) (before body flat braced : List Text) : Prop where
  flat : flat = before ++
    ("namespace " ++ scope ++ ";") :: (if body.isEmpty then [] else [] :: body)
  braced : braced = before ++
    ("namespace " ++ scope) :: "\x7b" :: (body.map deeperLine ++ [("\x7d" : Text)])

section

variable (s : Settings) (banner usings : List Text) (scope : Text)

/-- The lines before the namespace. -/
def leadLines : List Text :=
  (({} : Writer).lead banner usings).lines

/-- The lines of a file that is declared for the namespace, before its types. -/
theorem openFile_flat :
    (fileWriter (s.inForm true)).openFile (s.inForm true) banner usings scope =
      { shift := -1
        lines := leadLines banner usings ++ [("namespace " : Text) ++ scope ++ ";", []] } := by
  have hlead := Writer.lead_shift {} (-1) banner usings
  have hopen : (fileWriter (s.inForm true)).openFile (s.inForm true) banner usings scope
      = ((({ shift := -1 } : Writer).lead banner usings).line
          (("namespace " : Text) ++ scope ++ ";") 0).blank := rfl
  rw [hopen, hlead]
  simp [Writer.line, Writer.blank, Writer.indent, indentation, leadLines]

/-- The lines of a file that opens the namespace with a brace, before its types. -/
theorem openFile_braced :
    (fileWriter (s.inForm false)).openFile (s.inForm false) banner usings scope =
      { shift := 0
        lines := leadLines banner usings ++ [("namespace " : Text) ++ scope, "\x7b"] } := by
  have hlead := Writer.lead_shift {} 0 banner usings
  have hopen : (fileWriter (s.inForm false)).openFile (s.inForm false) banner usings scope
      = ((({ shift := 0 } : Writer).lead banner usings).line
          (("namespace " : Text) ++ scope) 0).line "\x7b" 0 := rfl
  rw [hopen, hlead]
  simp [Writer.line, Writer.indent, indentation, leadLines]

variable {s scope} {before : List Text} {flat braced : Writer}

/-- Closing two files that have types. -/
theorem Writer.Started.closeFile
    (h : Writer.Started (before ++ [("namespace " : Text) ++ scope ++ ";", []])
      (before ++ [("namespace " : Text) ++ scope, "\x7b"]) flat braced) :
    ∃ body, body ≠ [] ∧ InBothForms scope before body
      ((flat.closeFile (s.inForm true)).trimBlank.lines)
      ((braced.closeFile (s.inForm false)).trimBlank.lines) := by
  obtain ⟨body, ⟨l, hl, -⟩, hflat, hbraced⟩ := h.trimBlank.lines
  have hne : body ≠ [] := List.ne_nil_of_mem hl
  have hclose : (braced.trimBlank.line "\x7d" 0).lines
      = braced.trimBlank.lines ++ [("\x7d" : Text)] := rfl
  refine ⟨body, hne, ?_, ?_⟩
  · change flat.trimBlank.trimBlank.lines = _
    rw [Writer.trimBlank_trimBlank, hflat]
    simp [hne]
  · change (braced.trimBlank.line "\x7d" 0).trimBlank.lines = _
    rw [Writer.trimBlank_of_concat hclose (by simp), hclose, hbraced]
    simp

/-- Closing two files in which nothing has been written behind the namespace. -/
theorem inBothForms_nil
    (hflat : flat.lines = before ++ [("namespace " : Text) ++ scope ++ ";", []])
    (hbraced : braced.lines = before ++ [("namespace " : Text) ++ scope, "\x7b"]) :
    InBothForms scope before [] ((flat.closeFile (s.inForm true)).trimBlank.lines)
      ((braced.closeFile (s.inForm false)).trimBlank.lines) := by
  constructor
  · change flat.trimBlank.trimBlank.lines = _
    rw [Writer.trimBlank_trimBlank]
    simp [Writer.trimBlank, hflat]
  · change (braced.trimBlank.line "\x7d" 0).trimBlank.lines = _
    simp [Writer.trimBlank, Writer.line, Writer.indent, indentation, hbraced]

end

/-- The two writers of a file are in step where its types begin. -/
theorem inStep_openFile (s : Settings) (banner usings : List Text) (scope : Text) :
    Writer.InStep (leadLines banner usings ++ [("namespace " : Text) ++ scope ++ ";", []])
      (leadLines banner usings ++ [("namespace " : Text) ++ scope, "\x7b"])
      ((fileWriter (s.inForm true)).openFile (s.inForm true) banner usings scope)
      ((fileWriter (s.inForm false)).openFile (s.inForm false) banner usings scope) := by
  rw [openFile_flat, openFile_braced]
  exact ⟨rfl, rfl, [], by simp⟩

/-- A part of a type. -/
theorem Writer.InStep.typeSection {flatHead bracedHead : List Text} {flat braced : Writer}
    (h : Writer.InStep flatHead bracedHead flat braced) (s : Settings)
    (implementations : List Method) (q : Section) :
    Writer.Started flatHead bracedHead (flat.typeSection s implementations q)
      (braced.typeSection s implementations q) := by
  simp only [Writer.typeSection]
  split
  · exact h.interface _ _ _ _ (by decide)
  · exact h.classSection _ _ (by decide)

/-- The types of a file that has some. -/
theorem Writer.InStep.fileTypes {flatHead bracedHead : List Text} {flat braced : Writer}
    (h : Writer.InStep flatHead bracedHead flat braced) (s : Settings) (p : Plan) {f : OutputFile}
    (hne : ¬ (f.embedded = [] ∧ f.sections = [])) :
    Writer.Started flatHead bracedHead (flat.fileTypes s p f) (braced.fileTypes s p f) := by
  simp only [Writer.fileTypes]
  by_cases hembedded : f.embedded = []
  · rw [hembedded]
    exact h.foldl_blank (fun q h => h.typeSection s p.implementations q)
      fun hsections => hne ⟨hembedded, hsections⟩
  · have hstarted := h.foldl_blank (f := fun w d => w.embeddedType s.typeMap d typeLevel)
      (fun d h => h.classSection s.typeMap { type := d, methods := d.methods } (by decide))
      hembedded
    exact hstarted.foldl (fun q h => (h.inStep.typeSection s p.implementations q).blank) f.sections

/-- **Both forms of a namespace hold the same code**, for every plan, all settings and every file:
before the namespace the two buffers have the same lines; behind it, the buffer with braces has the
lines of the other one, each that is not empty with four more spaces in front, and one closing brace
behind them. Only in a file without types there is nothing behind the namespace. The files that are
written for the plan are the texts of these buffers. -/
theorem forms_agree (s : Settings) (p : Plan) (f : OutputFile) (d : TypeDecl) :
    (∃ before body, InBothForms (namespaceOf s f) before body (fileLines (s.inForm true) p f)
        (fileLines (s.inForm false) p f) ∧ (body = [] ↔ f.embedded = [] ∧ f.sections = [])) ∧
      (∃ before body, InBothForms (s.scope.resolve d.file) before body
        (constantsLines (s.inForm true) d) (constantsLines (s.inForm false) d) ∧ body ≠ []) ∧
      ∀ form, renderPlan (s.inForm form) p =
        ((p.files.map fun f =>
            GeneratedFile.mk f.name (bufferText s.lineEnding (fileLines (s.inForm form) p f))) ++
          (p.types.filter hasConstantsClass).map fun d =>
            GeneratedFile.mk (constantsClassName d)
              (bufferText s.lineEnding (constantsLines (s.inForm form) d))).mergeSort
          fun a b => Text.precedes a.name b.name := by
  refine ⟨?_, ?_, fun form => renderPlan_eq_buffers (s.inForm form) p⟩
  · have hopen := inStep_openFile s f.banner (usingsOf s p f) (namespaceOf s f)
    by_cases hempty : f.embedded = [] ∧ f.sections = []
    · have htypes : ∀ w : Writer, w.fileTypes s p f = w := by simp [Writer.fileTypes, hempty]
      refine ⟨leadLines f.banner (usingsOf s p f), [], inBothForms_nil ?_ ?_, by simp [hempty]⟩
      · exact (congrArg Writer.lines (htypes _)).trans
          (congrArg Writer.lines (openFile_flat s _ _ _))
      · exact (congrArg Writer.lines (htypes _)).trans
          (congrArg Writer.lines (openFile_braced s _ _ _))
    · obtain ⟨body, hne, hforms⟩ := (hopen.fileTypes s p hempty).closeFile (s := s)
      exact ⟨_, body, hforms, by simp [hne, hempty]⟩
  · have hopen := inStep_openFile s [] (s.scope.usingsFor true) (s.scope.resolve d.file)
    obtain ⟨body, hne, hforms⟩ :=
      (hopen.constantsClass d (show 1 ≤ typeLevel by decide)).closeFile (s := s)
    exact ⟨_, body, hforms, hne⟩

end Sharpen
