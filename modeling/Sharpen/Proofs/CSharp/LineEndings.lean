import Sharpen.Proofs.CSharp.NamespaceForms
import Sharpen.Proofs.CSharp.Signatures

/-!
# Line Endings of Generated Files

With carriage return and newline as the line ending, a file should have no other line breaks: every
newline stands behind a carriage return and every carriage return before a newline. What the texts
have been read from does not matter, since all carriage returns are gone once a text is read. So a
line break in a file that is no line ending is a newline inside one of its lines, and such newlines
come from the parameters of methods alone.

The argument has two halves. A buffer is turned into a text by putting the line ending behind each
of its lines, so the text has pairs only if no line has a newline or a carriage return. And the
lines of a buffer are followed through the writer: banner, usings, members and bodies are on single
lines for every tidy plan and every tidy setting, whatever the texts were, and signatures are as the
parameters are.

## Main definitions

* `EndsLinesAlike` — carriage returns and newlines come in pairs.
* `Plan.signedMethods` — the methods whose signatures are written.
* `Parameter.Unbroken` — a parameter has no newline in what is written as it was read: its name, its
  default value once it is converted, and its comments.
* `Section.signedMethods` — the methods whose signatures are written with a part of a type.
* `OutputFile.signedMethods` — the methods whose signatures are written into a file.

## Main results

* `endsLinesAlike_bufferText` — the text of a buffer has pairs only just if no line has a newline.
* `endsLinesAlike_renderPlan_iff` — all files of a plan end their lines alike just if none of these
  methods has a parameter with a newline in its name, its value or its comments.
* `within_fileTypes` — the types of a file ask for the parameters of their methods.
* `covers_fileLines` — the lines of a file are covered just if the signatures in it are.
-/

namespace Sharpen

open LineClass

/-! ### Pairs of carriage return and newline -/

/-- Every newline stands directly behind a carriage return and every carriage return directly before
a newline. -/
structure EndsLinesAlike (t : Text) : Prop where
  newline : ∀ u v, t = u ++ '\n' :: v → u.getLast? = some '\r'
  carriageReturn : ∀ u v, t = u ++ '\r' :: v → v.head? = some '\n'

theorem endsLinesAlike_nil : EndsLinesAlike [] :=
  ⟨by simp, by simp⟩

/-- What is so of the rest of a text is so of the text behind its first character. -/
theorem getLast?_cons_of_eq_some {c d : Char} {u : Text} (h : u.getLast? = some d) :
    (c :: u).getLast? = some d := by
  simp [List.getLast?_cons, h]

/-- A character that is no carriage return must be no newline either. -/
theorem endsLinesAlike_cons {c : Char} {t : Text} (hc : c ≠ '\r') :
    EndsLinesAlike (c :: t) ↔ c ≠ '\n' ∧ EndsLinesAlike t := by
  constructor
  · intro h
    refine ⟨?_, fun u v ht => ?_, fun u v ht => ?_⟩
    · rintro rfl
      simpa using h.newline [] t rfl
    · have hlast := h.newline (c :: u) v (by rw [ht, List.cons_append])
      cases u with
      | nil => simp [hc] at hlast
      | cons d u => simpa using hlast
    · exact h.carriageReturn (c :: u) v (by rw [ht, List.cons_append])
  · rintro ⟨hn, h⟩
    refine ⟨fun u v ht => ?_, fun u v ht => ?_⟩
    · cases u with
      | nil => exact absurd (List.cons.inj ht).1 hn
      | cons d u => exact getLast?_cons_of_eq_some (h.newline u v (List.cons.inj ht).2)
    · cases u with
      | nil => exact absurd (List.cons.inj ht).1 hc
      | cons d u => exact h.carriageReturn u v (List.cons.inj ht).2

/-- A carriage return with its newline is how a line ends, and says nothing about the rest. -/
theorem endsLinesAlike_pair {t : Text} :
    EndsLinesAlike ('\r' :: '\n' :: t) ↔ EndsLinesAlike t := by
  constructor
  · intro h
    refine ⟨fun u v ht => ?_, fun u v ht => ?_⟩
    · have hlast := h.newline ('\r' :: '\n' :: u) v (by rw [ht, List.cons_append, List.cons_append])
      cases u with
      | nil => simp at hlast
      | cons d u => simpa using hlast
    · exact h.carriageReturn ('\r' :: '\n' :: u) v
        (by rw [ht, List.cons_append, List.cons_append])
  · intro h
    refine ⟨fun u v ht => ?_, fun u v ht => ?_⟩
    · rcases u with _ | ⟨c, _ | ⟨d, u⟩⟩
      · simp at ht
      · rw [← (List.cons.inj ht).1, List.getLast?_singleton]
      · have hrest := h.newline u v (List.cons.inj (List.cons.inj ht).2).2
        exact getLast?_cons_of_eq_some (getLast?_cons_of_eq_some hrest)
    · rcases u with _ | ⟨c, _ | ⟨d, u⟩⟩
      · rw [← (List.cons.inj ht).2, List.head?_cons]
      · simp at ht
      · exact h.carriageReturn u v (List.cons.inj (List.cons.inj ht).2).2

/-- One line with its ending. -/
theorem endsLinesAlike_append {l t : Text} (hl : noReturn.Covers l) :
    EndsLinesAlike (l ++ '\r' :: '\n' :: t) ↔ oneLine.Covers l ∧ EndsLinesAlike t := by
  induction l with
  | nil => simp [endsLinesAlike_pair]
  | cons c l ih =>
      obtain ⟨hc, hl⟩ := covers_cons.mp hl
      rw [List.cons_append, endsLinesAlike_cons hc, ih hl, covers_cons, and_assoc]
      exact and_congr_left' (and_iff_left hc).symm

/-- **The text of a buffer without carriage returns** ends its lines alike just if no line has a
newline. -/
theorem endsLinesAlike_bufferText {ls : List Text} (h : ∀ l ∈ ls, noReturn.Covers l) :
    EndsLinesAlike (bufferText "\r\n" ls) ↔ ∀ l ∈ ls, oneLine.Covers l := by
  have hlast : ∀ l : Text, noReturn.Covers l →
      (EndsLinesAlike (l ++ ("\r\n" : Text)) ↔ oneLine.Covers l) := by
    intro l hl
    exact (endsLinesAlike_append hl).trans (and_iff_left endsLinesAlike_nil)
  induction ls with
  | nil => exact iff_of_true ((hlast [] covers_nil).mpr covers_nil) (List.forall_mem_nil _)
  | cons l r ih =>
      obtain ⟨hl, hr⟩ := List.forall_mem_cons.mp h
      cases r with
      | nil =>
          have hjoin : bufferText "\r\n" [l] = l ++ ("\r\n" : Text) := by
            simp [bufferText, Text.join]
          rw [hjoin, hlast l hl, List.forall_mem_singleton]
      | cons k r =>
          have hjoin : bufferText "\r\n" (l :: k :: r)
              = l ++ '\r' :: '\n' :: bufferText "\r\n" (k :: r) := by
            simp [bufferText, Text.join, List.intercalate]
          rw [hjoin, endsLinesAlike_append hl, List.forall_mem_cons (a := l)]
          exact and_congr_right fun _ => ih hr

/-! ### Parameters -/

/-- A parameter has no newline in what is written as it was read: its name, its default value once
it is converted, and its comments. -/
structure Parameter.Unbroken (p : Parameter) : Prop where
  name : '\n' ∉ p.name
  value : ∀ v ∈ p.default?, '\n' ∉ convertValue v
  comments : ∀ c ∈ p.comments, '\n' ∉ c.text

/-- A tidy parameter brings no carriage return into a signature. -/
theorem Parameter.Tidy.fits_noReturn {p : Parameter} (hp : p.Tidy) : p.Fits noReturn :=
  ⟨hp.name, fun v hv => covers_convertValue (hp.value v hv), hp.comments⟩

/-- It stays on its line exactly when its default value is unbroken. -/
theorem Parameter.Tidy.fits_oneLine_iff {p : Parameter} (hp : p.Tidy) :
    p.Fits oneLine ↔ p.Unbroken := by
  have hfits := hp.fits_noReturn
  constructor
  · intro h
    exact ⟨(covers_oneLine_iff.mp h.name).1, fun v hv => (covers_oneLine_iff.mp (h.value v hv)).1,
      fun c hc => (covers_oneLine_iff.mp (h.comments c hc)).1⟩
  · intro h
    exact ⟨hfits.name.oneLine_of_noReturn h.name,
      fun v hv => (hfits.value v hv).oneLine_of_noReturn (h.value v hv),
      fun c hc => (hfits.comments c hc).oneLine_of_noReturn (h.comments c hc)⟩

/-! ### Settings -/

/-- The texts of the settings that come into files are on one line. -/
structure Settings.Tidy (s : Settings) : Prop where
  scope : oneLine.Covers s.scope.name
  usings : ∀ u ∈ s.scope.usings, oneLine.Covers u
  interfaceUsings : ∀ us ∈ s.scope.interfaceUsings, ∀ u ∈ us, oneLine.Covers u
  typeMap : s.typeMap.Tidy

section

variable {s : Settings} (hs : s.Tidy)

include hs

/-- The namespaces that every file uses are on one line each. -/
theorem covers_usingsFor (interfacesOnly : Bool) :
    ∀ u ∈ s.scope.usingsFor interfacesOnly, oneLine.Covers u := by
  rw [NamespaceSettings.usingsFor]
  split
  · cases husings : s.scope.interfaceUsings with
    | none => exact hs.usings
    | some us => exact hs.interfaceUsings us husings
  · exact hs.usings

/-- So is the namespace of a file. -/
theorem covers_resolve {file : Text} (hfile : oneLine.Covers file) :
    oneLine.Covers (s.scope.resolve file) :=
  covers_replaceAll hs.scope hfile

/-- So is the line that opens the constants of a type. -/
theorem covers_constantsUsing {d : TypeDecl} (hd : d.Tidy) :
    oneLine.Covers (constantsUsing s d) := by
  have hname : oneLine.Covers (constantsClassName d) :=
    covers_append.mpr ⟨covers_interfaceBase hd.name, covers_literal (by decide)⟩
  exact covers_append.mpr
    ⟨covers_append.mpr ⟨covers_resolve hs hd.file, covers_literal (by decide)⟩, hname⟩

/-- So are all lines with which a file opens namespaces. -/
theorem covers_usingsOf {p : Plan} (hp : p.Tidy) (f : OutputFile) :
    ∀ u ∈ usingsOf s p f, oneLine.Covers u := by
  refine List.forall_mem_append.mpr ⟨covers_usingsFor hs _, List.forall_mem_map.mpr fun u hu => ?_⟩
  obtain ⟨d, hd, rfl⟩ := List.mem_map.mp (List.mem_filter.mp hu).1
  exact covers_append.mpr ⟨covers_literal (by decide),
    covers_constantsUsing hs (hp.types d (List.mem_filter.mp hd).1)⟩

end

/-! ### Files -/

/-- The methods whose signatures are written with a part of a type. -/
def Section.signedMethods (s : Section) : List Method :=
  if s.type.isInterface then contractMethods s.type ++ staticMethods s.type else s.methods

/-- The methods whose signatures are written into a file. -/
def OutputFile.signedMethods (f : OutputFile) : List Method :=
  f.embedded.flatMap TypeDecl.methods ++ f.sections.flatMap Section.signedMethods

/-- The methods whose signatures are written. -/
def Plan.signedMethods (p : Plan) : List Method :=
  p.files.flatMap OutputFile.signedMethods

/-- The methods whose signatures a tidy file writes are tidy. -/
theorem tidy_signedMethods {f : OutputFile} (hf : f.Tidy) : ∀ m ∈ f.signedMethods, m.Tidy := by
  refine List.forall_mem_append.mpr ⟨fun m hm => ?_, fun m hm => ?_⟩
  · obtain ⟨d, hd, hm⟩ := List.mem_flatMap.mp hm
    exact (hf.embedded d hd).methods m hm
  · obtain ⟨q, hq, hm⟩ := List.mem_flatMap.mp hm
    have hsection := hf.sections q hq
    rw [Section.signedMethods] at hm
    split at hm
    · rcases List.mem_append.mp hm with hm | hm
      · exact hsection.type.methods m (List.mem_filter.mp hm).1
      · exact hsection.type.methods m (List.mem_filter.mp hm).1
    · exact hsection.methods m hm

section

variable {S : LineClass} {w : Writer} {s : Settings}

/-- The lines that open a file add nothing that could break a line. -/
theorem within_openFile {banner usings : List Text} {scope : Text}
    (hbanner : ∀ l ∈ banner, S.Covers l) (husings : ∀ u ∈ usings, S.Covers u)
    (hscope : S.Covers scope) : (w.openFile s banner usings scope).Within S ↔ w.Within S := by
  have hused : ∀ l ∈ usings.map fun u : Text => ("using " : Text) ++ u ++ ";", S.Covers l := by
    refine List.forall_mem_map.mpr fun u hu => ?_
    simp (disch := decide) only [covers_append, covers_literal, husings u hu, and_self]
  have hlead : ∀ w : Writer, (if usings.isEmpty then w
      else (w.lineAll (usings.map fun u : Text => ("using " : Text) ++ u ++ ";") 0).blank).Within S
        ↔ w.Within S := by
    intro w
    split
    · exact Iff.rfl
    · rw [within_blank, within_lineAll, and_iff_left hused]
  have hbanner' : (if banner.isEmpty then w else (w.lineAll banner 0).blank).Within S
      ↔ w.Within S := by
    split
    · exact Iff.rfl
    · rw [within_blank, within_lineAll, and_iff_left hbanner]
  simp only [Writer.openFile]
  split
  · have hline : S.Covers ("namespace " ++ scope ++ ";") := by
      simp (disch := decide) only [covers_append, covers_literal, hscope, and_self]
    rw [within_blank, within_line, and_iff_left hline, hlead, hbanner']
  · have hline : S.Covers ("namespace " ++ scope) := by
      simp (disch := decide) only [covers_append, covers_literal, hscope, and_self]
    rw [within_openBrace, within_line, and_iff_left hline, hlead, hbanner']

/-- Nor do those that close it. -/
theorem within_closeFile : (w.closeFile s).Within S ↔ w.Within S := by
  rw [Writer.closeFile]
  split
  · exact within_trimBlank
  · rw [within_closeBrace, within_trimBlank]

/-- Nor is there such a thing at the start. -/
theorem within_fileWriter : (fileWriter s).Within S :=
  List.forall_mem_nil _

/-- A section adds what the signatures of its methods have. -/
theorem within_typeSection (htypes : s.typeMap.Tidy) {implementations : List Method} {q : Section}
    (hq : q.Tidy) :
    (w.typeSection s implementations q).Within S ↔
      w.Within S ∧ ∀ m ∈ q.signedMethods, m.SignatureFits S := by
  rw [Writer.typeSection, Section.signedMethods]
  split
  · exact within_interface htypes hq.type
  · exact within_classSection htypes hq

/-- **The types of a file** ask for the parameters of their methods. -/
theorem within_fileTypes (htypes : s.typeMap.Tidy) {p : Plan} {f : OutputFile} (hf : f.Tidy) :
    (w.fileTypes s p f).Within S ↔ w.Within S ∧ ∀ m ∈ f.signedMethods, m.SignatureFits S := by
  simp only [Writer.fileTypes]
  rw [within_foldl (C := fun q => ∀ m ∈ Section.signedMethods q, m.SignatureFits S),
    within_foldl (C := fun d => ∀ m ∈ TypeDecl.methods d, m.SignatureFits S)]
  · simp only [OutputFile.signedMethods, List.forall_mem_append, List.forall_mem_flatMap, and_assoc]
  · intro d hd w
    rw [within_blank, within_embeddedType htypes (hf.embedded d hd)]
  · intro q hq w
    rw [within_blank, within_typeSection htypes (hf.sections q hq)]

/-- **The lines of a file** are covered just if the signatures in it are. -/
theorem covers_fileLines (hs : s.Tidy) {p : Plan} (hp : p.Tidy) {f : OutputFile} (hf : f.Tidy) :
    (∀ l ∈ fileLines s p f, S.Covers l) ↔ ∀ m ∈ f.signedMethods, m.SignatureFits S := by
  have hscope : oneLine.Covers (namespaceOf s f) :=
    covers_resolve hs (covers_nonemptyOr hf.headerStem hf.name)
  refine within_trimBlank.trans ?_
  rw [within_closeFile, within_fileTypes hs.typeMap hf,
    within_openFile (forall_covers_of_oneLine hf.banner)
      (forall_covers_of_oneLine (covers_usingsOf hs hp f)) hscope.of_oneLine,
    and_iff_right within_fileWriter]

/-- The constants of an interface are on single lines. -/
theorem covers_constantsLines (hs : s.Tidy) {d : TypeDecl} (hd : d.Tidy) :
    ∀ l ∈ constantsLines s d, S.Covers l := by
  have hname : S.Covers ("public static class " ++ constantsClassName d) :=
    covers_append.mpr ⟨covers_literal (by decide),
      covers_append.mpr ⟨covers_interfaceBase hd.name.of_oneLine, covers_literal (by decide)⟩⟩
  have haccess : ∀ a ∈ some ("public" : Text), S.Covers a := by
    rintro a ⟨⟩
    exact covers_literal (by decide)
  refine within_trimBlank.mpr ?_
  rw [within_closeFile, Writer.constantsClass, within_closeBrace,
    within_constants (tidy_constants hd) haccess, within_openBrace, within_line, and_iff_left hname,
    within_openFile (List.forall_mem_nil _) (forall_covers_of_oneLine (covers_usingsFor hs true))
      (covers_resolve hs hd.file).of_oneLine]
  exact within_fileWriter

end

/-! ### Plans -/

/-- **One line ending**: with carriage return and newline as the line ending, all files that are
written for header and source texts end their lines alike, whatever line breaks the texts have, just
if no method whose signature is written has a parameter with a newline in its name, in its default
value or in its comments. The settings and the paths of the texts are on single lines. What matters
of the plan is that it is tidy: no line has a carriage return, and one has a newline just if a
parameter has. -/
theorem endsLinesAlike_renderPlan_iff {s : Settings} (hending : s.lineEnding = "\r\n") (hs : s.Tidy)
    {headers sources : List NamedText} (hpaths : ∀ t ∈ headers ++ sources, oneLine.Covers t.1) :
    (∀ f ∈ renderPlan s (Plan.ofTexts headers sources).1, EndsLinesAlike f.content) ↔
      ∀ m ∈ (Plan.ofTexts headers sources).1.signedMethods, ∀ p ∈ m.parameters, p.Unbroken := by
  have hplan := tidy_ofTexts hpaths
  generalize (Plan.ofTexts headers sources).1 = plan at hplan ⊢
  have hfile : ∀ f ∈ plan.files, (EndsLinesAlike (bufferText "\r\n" (fileLines s plan f)) ↔
      ∀ m ∈ f.signedMethods, ∀ p ∈ m.parameters, p.Unbroken) := by
    intro f hf
    have hmethods := tidy_signedMethods (hplan.files f hf)
    rw [endsLinesAlike_bufferText, covers_fileLines hs hplan (hplan.files f hf)]
    · exact forall₂_congr fun m hm => forall₂_congr fun p hp =>
        ((hmethods m hm).parameters p hp).fits_oneLine_iff
    · rw [covers_fileLines hs hplan (hplan.files f hf)]
      exact fun m hm p hp => ((hmethods m hm).parameters p hp).fits_noReturn
  have hconstants : ∀ d ∈ plan.types.filter hasConstantsClass,
      EndsLinesAlike (bufferText "\r\n" (constantsLines s d)) := by
    intro d hd
    have htidy := hplan.types d (List.mem_filter.mp hd).1
    exact (endsLinesAlike_bufferText (covers_constantsLines hs htidy)).mpr
      (covers_constantsLines hs htidy)
  simp only [renderPlan_eq_buffers, hending, List.mem_mergeSort, List.forall_mem_append,
    List.forall_mem_map, Plan.signedMethods, List.forall_mem_flatMap]
  rw [and_iff_left hconstants]
  exact forall₂_congr hfile

/-! ### A default value over two lines -/

/-- Settings with carriage return and newline as the line ending. -/
def pairedSettings : Settings where
  lineEnding := "\r\n"

/-- The settings of the example are tidy. -/
theorem tidy_pairedSettings : pairedSettings.Tidy where
  scope := covers_literal (by decide)
  usings := List.forall_mem_nil _
  interfaceUsings := fun us h => absurd h (Option.not_mem_none us)
  typeMap := List.forall_mem_nil _

/-- A header with line breaks of every kind. -/
def mixedText : Text :=
  "class Shape\r\n\x7b\npublic:\r    void grow(int n = 2 /* steps */);\n\x7d;\r\n"

/-- **Its file has line breaks of one kind.** -/
theorem endsLinesAlike_mixedText :
    (renderPlan pairedSettings (Plan.ofTexts [("Shape.h", mixedText)] []).1).length = 1 ∧
      ∀ f ∈ renderPlan pairedSettings (Plan.ofTexts [("Shape.h", mixedText)] []).1,
        EndsLinesAlike f.content := by
  have hpaths : ∀ t ∈ [(("Shape.h" : Text), mixedText)] ++ [], oneLine.Covers t.1 :=
    List.forall_mem_singleton.mpr (covers_literal (t := "Shape.h") (by decide))
  refine ⟨by decide +kernel, ?_⟩
  refine (endsLinesAlike_renderPlan_iff rfl tidy_pairedSettings hpaths).mpr ?_
  have hunbroken : ∀ m ∈ (Plan.ofTexts [("Shape.h", mixedText)] []).1.signedMethods,
      ∀ p ∈ m.parameters, '\n' ∉ p.name ∧ (∀ v ∈ p.default?, '\n' ∉ convertValue v) ∧
        ∀ c ∈ p.comments, '\n' ∉ c.text := by
    decide +kernel
  intro m hm p hp
  obtain ⟨hname, hvalue, hcomments⟩ := hunbroken m hm p hp
  exact ⟨hname, hvalue, hcomments⟩

/-- A header with a default value over two lines. -/
def brokenText : Text :=
  "class Shape\r\n\x7b\r\npublic:\r\n    void grow(int n = sum(1,\r\n        2));\r\n\x7d;\r\n"

/-- What its file has before the newline inside the value. -/
def brokenStart : Text :=
  "namespace Generated_Shape\r\n\x7b\r\n    internal class Shape\r\n    \x7b\r\n" ++
  "        public void grow(int n = sum(1,"

/-- What it has behind the newline. -/
def brokenEnd : Text :=
  "        2))\r\n        \x7b\r\n            // TODO: Implementation not found\r\n" ++
  "            throw new NotImplementedException();\r\n        \x7d\r\n    \x7d\r\n\x7d\r\n"

/-- **A line ending can be missing**: not all files end their lines alike when the line ending is
carriage return and newline. -/
theorem not_forall_endsLinesAlike :
    ¬ ∀ (s : Settings) (headers sources : List NamedText), s.lineEnding = "\r\n" →
      ∀ f ∈ renderPlan s (Plan.ofTexts headers sources).1, EndsLinesAlike f.content := by
  intro hall
  have hrender : renderPlan pairedSettings (Plan.ofTexts [("Shape.h", brokenText)] []).1
      = [⟨"Shape", brokenStart ++ '\n' :: brokenEnd⟩] := by
    decide +kernel
  have hfile := hall pairedSettings [("Shape.h", brokenText)] [] rfl
    ⟨"Shape", brokenStart ++ '\n' :: brokenEnd⟩ (hrender ▸ List.mem_cons_self)
  have hlast : brokenStart.getLast? = some ',' := by decide
  exact absurd ((hfile.newline brokenStart brokenEnd rfl).symm.trans hlast) (by decide)

end Sharpen
