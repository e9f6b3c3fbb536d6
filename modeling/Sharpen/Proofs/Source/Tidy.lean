import Sharpen.Proofs.Header.Tidy
import Sharpen.Proofs.Source.Readings

/-!
# Tidy Sources

What is read from a source file is tidy like what is read from a header: bodies and values of static
members may go over several lines, everything else is words, or lines of comments, or markers of
regions that end with their lines.

The page of a source file has no carriage returns, and what is cut out of it has none either. What
must be on one line is read as a word, or cut at the end of a line. The types that a source defines
are read from their own text by the reader of headers, and are tidy for that reason.

## Main definitions

* `Source.Tidy`, `tidy_parseSource` — everything that is read from a source is tidy.

## Main results

* `gives_regionLine` — the name of a region ends with its line.
* `tidy_define` — definitions are tidy.
-/

namespace Sharpen

open LineClass

/-! ### Spans -/

/-- Skipping some characters of the rest moves the position by their number. -/
theorem Cursor.position_skip {c : Cursor} {n : Nat} (h : n ≤ c.rest.length) :
    (c.skip n).position = c.position + n := by
  induction n generalizing c with
  | zero => rfl
  | succ n ih =>
      rw [Cursor.skip]
      split
      · rename_i hrest
        rw [hrest] at h
        simp at h
      · rename_i x r hrest
        rw [hrest] at h
        rw [ih (by simpa using h)]
        dsimp only
        omega

/-- The positions before and behind a run of characters of a class are those of a stretch of the
text in which there are no others. -/
theorem Reader.gives_span {α : Type} {P : α → Prop} (p : Char → Bool) (t : Text)
    {k : Nat → Nat → Reader α}
    (hk : ∀ start stop, (∀ c ∈ t.slice start stop, p c = true) →
      (k start stop).Gives (Track.inside t) P) :
    (do
      let start ← Reader.here
      let _ ← Reader.many p
      let stop ← Reader.here
      k start stop : Reader α).Gives (Track.inside t) P := by
  intro c a c' hc hrun
  have hrun' : (k c.position (c.skip (c.rest.takeWhile p).length).position).run
      (c.skip (c.rest.takeWhile p).length) = some (a, c') := hrun
  refine hk _ _ (fun x hx => ?_) (Track.skip _ _ hc) hrun'
  have hle : (c.rest.takeWhile p).length ≤ c.rest.length := (List.takeWhile_prefix p).length_le
  have hrest : c.rest = t.drop c.position := hc
  have hslice : t.slice c.position (c.position + (c.rest.takeWhile p).length)
      = c.rest.takeWhile p := by
    rw [Text.slice, List.drop_take, ← hrest, Nat.add_sub_cancel_left]
    exact (List.prefix_iff_eq_take.mp (List.takeWhile_prefix p)).symm
  rw [Cursor.position_skip hle, hslice] at hx
  exact List.all_eq_true.mp List.all_takeWhile x hx

/-- **The name of a region ends with its line.** -/
theorem gives_regionLine (t : Text) :
    regionLine.Gives (Track.inside t) fun r => '\n' ∉ t.slice r.nameSpan.1 r.nameSpan.2 := by
  refine Reader.gives_lineStart.bind fun _ _ => Reader.gives_here.bind fun _ _ => ?_
  refine (Reader.gives_many _).bind fun _ _ => (Reader.gives_char _).bind fun _ _ => ?_
  refine Reader.gives_blanks.bind fun _ _ => ?_
  refine ((Reader.gives_text _).bind fun _ _ => Reader.gives_blanks1).option.bind fun _ _ => ?_
  refine (Reader.gives_oneOf _).bind fun _ _ => Reader.gives_wordEnd.bind fun _ _ => ?_
  refine (Reader.gives_many _).bind fun _ _ => Reader.gives_span _ t fun start stop hspan => ?_
  exact Reader.gives_pure fun hmem => by simpa using hspan _ hmem

/-- The masked copy shows the newlines of every stretch of the text. -/
theorem mem_newline_slice_masked {page : Page} (hmask : page.masked = maskCode page.text)
    (i j : Nat) : '\n' ∈ page.masked.slice i j ↔ '\n' ∈ page.text.slice i j := by
  have hmap : (page.masked.slice i j).map (· == '\n') = (page.text.slice i j).map (· == '\n') := by
    simp only [Text.slice, List.map_drop, List.map_take, hmask, maskCode, map_newline_maskFrom]
  have hmem : ∀ t : Text, '\n' ∈ t ↔ true ∈ t.map (· == '\n') := by simp
  rw [hmem, hmem, hmap]

/-! ### Methods -/

section

variable {page : SourcePage} (hpage : page.toPage.Tidy)

include hpage

/-- **Definitions are tidy.** -/
theorem tidy_define {d : Definition} (hd : d.IsFound page) (s : SourceScan) :
    (s.define page d).1.Tidy := by
  obtain ⟨i, j, hparameters⟩ := hd.parameters
  have hhead : oneLine.Covers (Text.join " " (headWords d.head)) :=
    (covers_join (covers_literal (by decide))).mpr fun w hw =>
      covers_words _ w (List.mem_filter.mp hw).1
  rw [SourceScan.fst_define]
  exact {
    name := covers_of_forall (by decide) (by decide) hd.name
    returnType := covers_normalizeType hhead
    parameters := tidy_parseParameters (hparameters ▸ covers_slice hpage.text i j)
    initializers := tidy_parseInitializers _
    inlineBody := covers_nil
    targetFile := hpage.stem
    headerComments := List.forall_mem_nil _
    sourceComments := covers_collectComments hpage.lines _ _
    headerRegionStart := covers_nil
    headerRegionEnd := covers_nil
    sourceRegionStart := covers_nil
    sourceRegionEnd := covers_nil }

/-- Region markers are on one line. -/
theorem covers_marker (hmask : page.masked = maskCode page.text) {r : RegionLine}
    (hr : r ∈ page.regionLines) : oneLine.Covers (r.marker page) := by
  have hline := (gives_regionLine page.masked).findAll rfl r (List.mem_filter.mp hr).1
  rw [mem_newline_slice_masked hmask] at hline
  have hname : oneLine.Covers (Text.trim (page.text.slice r.nameSpan.1 r.nameSpan.2)) :=
    covers_trim ((covers_slice hpage.text _ _).oneLine_of_noReturn hline)
  simp only [RegionLine.marker]
  refine covers_append.mpr ⟨?_, ?_⟩
  · split <;> exact covers_literal (by decide)
  · split
    · exact covers_nil
    · exact covers_cons.mpr ⟨has_space, hname⟩

/-- That methods are tidy is kept from their definitions on. -/
theorem readable_tidy (hmask : page.masked = maskCode page.text) : Readable page Method.Tidy where
  define s _ hd := tidy_define hpage hd s
  asLocal _ h := { h with }
  number _ _ h := { h with }
  regionStart _ _ hr h := { h with sourceRegionStart := covers_marker hpage hmask hr }
  regionEnd _ _ hr h := { h with sourceRegionEnd := covers_marker hpage hmask hr }

/-! ### Types and constants -/

/-- Types that are defined in the file. -/
theorem tidy_takeEmbeddedType {path : Text} (hpath : oneLine.Covers path)
    {acc : List TypeDecl × SourceScan} (h : ∀ d ∈ acc.1, d.Tidy) (m : Nat × Nat) :
    ∀ d ∈ (takeEmbeddedType path page acc m).1, d.Tidy := by
  rw [takeEmbeddedType]
  dsimp only
  split
  · exact h
  · split
    · exact h
    · refine List.forall_mem_append.mpr ⟨h, fun d hd => ?_⟩
      obtain ⟨c, hc, rfl⟩ := List.mem_map.mp hd
      have htidy := (tidy_parseHeader _ hpath).types c hc
      have hcomments := covers_collectComments hpage.lines
      refine { htidy with file := hpage.stem, comments := ?_, methods := ?_ }
      · simp only [embed]
        split
        · exact htidy.comments
        · exact hcomments _ _
      · intro k hk
        obtain ⟨l, hl, rfl⟩ := List.mem_map.mp hk
        exact { htidy.methods l hl with targetFile := hpage.stem }

/-- A constructor that stands behind its type. -/
theorem tidy_takeFreeFunction {found : FoundFunctions} (h : ∀ d ∈ found.structs, d.Tidy)
    {m : FreeFunction} (hm : m ∈ freeFunction.findAll page.masked) :
    ∀ d ∈ (takeFreeFunction page found m).structs, d.Tidy := by
  obtain ⟨scan, heq⟩ | ⟨d, hd, ⟨i, heq⟩ | heq⟩ := takeFreeFunction_cases found hm
  · exact heq ▸ h
  · rw [heq]
    refine forall_mem_modify h (fun t ht => ?_) i
    refine { ht with methods := forall_mem_concat ht.methods ?_ }
    exact { tidy_define hpage hd found.scan with }
  · exact heq ▸ h

/-- Constants at file scope. -/
theorem tidy_takeConstant {acc : List Constant × SourceScan} (h : ∀ c ∈ acc.1, c.Tidy)
    (span : Nat × Nat) : ∀ c ∈ (takeConstant page acc span).1, c.Tidy := by
  rw [takeConstant]
  dsimp only
  split
  · exact h
  · refine List.forall_mem_append.mpr ⟨h, ?_⟩
    exact tidy_ofLine? (covers_slice hpage.text _ _) (covers_collectComments hpage.lines _ _)

end

/-- Numbers leave types tidy. -/
theorem tidy_numberTypes {types : List TypeDecl} (h : ∀ d ∈ types, d.Tidy) (positions : List Nat)
    (base : Nat) : ∀ d ∈ numberTypes positions base types, d.Tidy := by
  induction types generalizing base with
  | nil => exact h
  | cons d r ih =>
      obtain ⟨hd, hr⟩ := List.forall_mem_cons.mp h
      refine List.forall_mem_cons.mpr ⟨{ hd with methods := fun m hm => ?_ }, ih hr _⟩
      obtain ⟨i, hi, rfl⟩ := List.mem_mapIdx.mp hm
      exact { hd.methods d.methods[i] (List.getElem_mem hi) with }

/-! ### The whole file -/

/-- What is read of a source is tidy. -/
structure Source.Tidy (s : Source) : Prop where
  stem : oneLine.Covers s.stem
  methods : ∀ m ∈ s.methods, m.Tidy
  locals : ∀ m ∈ s.locals, m.Tidy
  structs : ∀ d ∈ s.structs, d.Tidy
  staticInits : ∀ i ∈ s.staticInits, noReturn.Covers i.value
  constants : ∀ c ∈ s.constants, c.Tidy
  banner : ∀ l ∈ s.banner, oneLine.Covers l

/-- The value of a static initializer has no carriage return. -/
theorem covers_staticInitOf? {page : SourcePage} {s : SourceScan} {m : StaticInitMatch}
    {i : StaticInit} (h : staticInitOf? page s m = some i) : noReturn.Covers i.value := by
  simp only [staticInitOf?] at h
  split at h
  · cases h
  · obtain rfl := Option.some.inj h
    exact covers_normalizeBlock _

/-- **Every source is tidy**, whatever line breaks its text has. -/
theorem tidy_parseSource (text : Text) {path : Text} (hpath : oneLine.Covers path) :
    (parseSource text path).1.Tidy := by
  have hpage : (SourcePage.ofText text path).toPage.Tidy := Page.tidy_ofText text hpath
  have hmethods := forall_mem_parseSource (readable_tidy hpage rfl)
  obtain ⟨hmethods, hlocals⟩ := List.forall_mem_append.mp hmethods
  refine ⟨hpage.stem, hmethods, hlocals, ?_, ?_, ?_, covers_bannerComments hpage.lines⟩
  · rw [parseSource]
    refine tidy_numberTypes ?_ _ _
    refine List.foldlRecOn (motive := fun found => ∀ d ∈ FoundFunctions.structs found, d.Tidy) _ _
      ?_ fun found h m hm => tidy_takeFreeFunction hpage h hm
    exact List.foldlRecOn (motive := fun acc : List TypeDecl × _ => ∀ d ∈ acc.1, d.Tidy) _ _
      (by simp) fun acc h m _ => tidy_takeEmbeddedType hpage hpath h m
  · rw [parseSource]
    intro i hi
    obtain ⟨m, -, hm⟩ := List.mem_filterMap.mp (List.mem_mergeSort.mp hi)
    exact covers_staticInitOf? hm
  · rw [parseSource]
    exact List.foldlRecOn (motive := fun acc : List Constant × _ => ∀ c ∈ acc.1, c.Tidy) _ _
      (by simp) fun acc h span _ => tidy_takeConstant hpage h span

end Sharpen
