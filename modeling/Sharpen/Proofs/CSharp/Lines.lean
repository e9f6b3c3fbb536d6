import Sharpen.CSharp.File
import Sharpen.Proofs.Decl.Tidy
import Sharpen.Proofs.Text.Results

/-!
# Lines of Generated Code

A writer gathers lines, and some of what is written as a line may itself have line breaks. This
module follows the operations of a writer and says which texts must be without them. Converting code
and types adds none. Members and constants that are tidy ask for nothing: what goes over several
lines is cut into them before it is written, and all else that is on a line was on one before.

A statement about a writer has the form of an equivalence: the lines are covered after an operation
just if they were before and the texts that it writes are. These equivalences are tagged for
simplification, so that what is written for a whole declaration unfolds into the texts that could
break a line. Both classes of characters are treated at once, for what is written in between
consists of spaces, marks and words.

## Main definitions

* `Writer.Within` — a class of characters has all that is written.
* `TypeMap.Tidy` — a table of types whose C# names are on single lines.

## Main results

* `covers_convertBody`, `covers_mapType` — converted code and types keep to their class.
* `within_member`, `within_constants` — members and constants ask for nothing.
-/

namespace Sharpen

open LineClass

variable {S : LineClass}

/-! ### Code -/

/-- What is left behind a literal is the end of the text. -/
theorem suffix_of_literalRest? {oneLine : Bool} {q : Char} {t r : Text}
    (h : literalRest? oneLine q t = some r) : r <:+ t := by
  fun_induction literalRest? oneLine q t with
  | case1 => simp at h
  | case2 c hc =>
      obtain rfl := Option.some.inj h
      exact List.nil_suffix
  | case3 c hc => simp at h
  | case4 c d t hc =>
      obtain rfl := Option.some.inj h
      exact List.suffix_cons _ _
  | case5 c d t hc hb hd => simp at h
  | case6 c d t hc hb hd ih =>
      exact (ih h).trans ((List.suffix_cons _ _).trans (List.suffix_cons _ _))
  | case7 c d t hc hb ho => simp at h
  | case8 c d t hc hb ho ih => exact (ih h).trans (List.suffix_cons _ _)

/-- Cutting code at its literals loses nothing. -/
theorem covers_literalSegments {t : Text} (h : S.Covers t) :
    S.Covers (literalSegments t).1 ∧
      ∀ p ∈ (literalSegments t).2, S.Covers p.1 ∧ S.Covers p.2 := by
  fun_induction literalSegments t with
  | case1 => simp
  | case2 c r rest hrest hle code more hcut ih =>
      have hsuffix : S.Covers rest := by
        refine (covers_cons.mp h).2.subset ?_
        rw [behindLiteral?] at hrest
        split at hrest
        · exact (suffix_of_literalRest? hrest).subset
        · cases hrest
      rw [hcut] at ih
      obtain ⟨hcode, hmore⟩ := ih hsuffix
      exact ⟨covers_nil, List.forall_mem_cons.mpr ⟨⟨h.subset (List.take_subset _ _), hcode⟩, hmore⟩⟩
  | case3 c r hrest code more hcut ih =>
      obtain ⟨hc, hr⟩ := covers_cons.mp h
      rw [hcut] at ih
      obtain ⟨hcode, hmore⟩ := ih hr
      exact ⟨covers_cons.mpr ⟨hc, hcode⟩, hmore⟩

/-- The literal inside a text macro is part of the text. -/
theorem gives_textMacro : textMacro.Gives (Track.within S) S.Covers := by
  refine Reader.gives_wordStart.bind fun _ _ => (Reader.gives_char _).bind fun _ _ => ?_
  refine (Reader.gives_char _).option.bind fun _ _ => (Reader.gives_char _).bind fun _ _ => ?_
  refine Reader.gives_blanks.bind fun _ _ => (Reader.gives_satisfy _).bind fun q hq => ?_
  have hquote : S.has q := has_of_eq_true (by decide) (by decide) hq
  refine Reader.Gives.bind (Q := S.Covers) ?_ fun inside hinside => ?_
  · intro c t c' hc hrun
    obtain ⟨rest, -, heq⟩ := Option.map_eq_some_iff.mp hrun
    obtain ⟨rfl, rfl⟩ := Prod.mk.inj heq
    exact ⟨LineClass.Covers.subset hc (List.take_subset _ _), Track.skip _ _ hc⟩
  · refine Reader.gives_blanks.bind fun _ _ => (Reader.gives_char _).bind fun _ _ => ?_
    exact Reader.gives_pure (covers_cons.mpr ⟨hquote, hinside⟩)

/-- A word as it is written in C# brings in no line break. -/
theorem covers_convertWord {w : Text} (h : S.Covers w) : S.Covers (convertWord w) := by
  rw [convertWord]
  split_ifs
  · exact covers_literal (by decide)
  · exact covers_literal (by decide)
  · exact covers_literal (by decide)
  · exact h

/-- **Code keeps to its class.** -/
theorem covers_convertBody {t : Text} (h : S.Covers t) : S.Covers (convertBody t) := by
  obtain ⟨hcode, hmore⟩ := covers_literalSegments (gives_textMacro.covers_replaceIn h)
  refine covers_append.mpr ⟨covers_mapWords (fun _ => covers_convertWord) hcode, ?_⟩
  rw [List.flatMap, covers_flatten]
  intro u hu
  obtain ⟨p, hp, rfl⟩ := List.mem_map.mp hu
  obtain ⟨hliteral, hbehind⟩ := hmore p hp
  exact covers_append.mpr ⟨hliteral, covers_mapWords (fun _ => covers_convertWord) hbehind⟩

/-- Nor does a value as it is written in C#. -/
theorem covers_convertValue {t : Text} (h : S.Covers t) : S.Covers (convertValue t) :=
  covers_convertBody (covers_trim h)

/-! ### Types -/

/-- A table of types whose C# names are on single lines. -/
def TypeMap.Tidy (m : TypeMap) : Prop :=
  ∀ e ∈ m, oneLine.Covers e.2

section

variable {types : TypeMap} (htypes : types.Tidy)

include htypes

/-- What a mapping makes of a type is covered with the mapping. -/
theorem covers_find? {name image : Text} (hname : S.Covers name)
    (h : types.find? name = some image) : S.Covers image := by
  rcases Option.or_eq_some_iff.mp h with h | ⟨-, h⟩
  · obtain ⟨l₁, l₂, heq, -⟩ := List.lookup_eq_some_iff.mp h
    exact (htypes (name, image) (by simp [heq])).of_oneLine
  · split at h
    · exact Option.some.inj h ▸ hname
    · cases h

/-- **The name of a type keeps to its class.** -/
theorem covers_mapType {t : Text} (h : S.Covers t) : S.Covers (types.mapType t) := by
  have hword : TypeMap.typeName.Gives (Track.within S) fun name =>
      S.Covers ((types.find? name).getD name) := by
    refine (Reader.gives_satisfy _).bind fun first hfirst => ?_
    refine (Reader.gives_many _).bind fun others hothers => Reader.gives_pure ?_
    have hname : S.Covers (first :: others) := covers_cons.mpr
      ⟨has_of_eq_true (by decide) (by decide) hfirst,
        covers_of_forall (by decide) (by decide) hothers⟩
    cases hfind : types.find? (first :: others) with
    | none => exact hname
    | some image => exact covers_find? htypes hname hfind
  rw [TypeMap.mapType]
  dsimp only
  split
  · exact covers_literal (by decide)
  · have hbare : S.Covers (Text.trim (Text.dropEndWhile (fun c => c == '*' || c == '&')
        (if Text.startsWith t.trim "const " then Text.trim (t.trim.drop 6) else t.trim))) := by
      refine covers_trim (covers_dropEndWhile ?_ _)
      split
      · exact covers_trim ((covers_trim h).subset (List.drop_subset _ _))
      · exact covers_trim h
    split
    · rename_i image hfind
      exact covers_find? htypes hbare hfind
    · exact hword.covers_replaceIn hbare

end

/-! ### Writers -/

/-- A class has all characters that are written. -/
def Writer.Within (S : LineClass) (w : Writer) : Prop :=
  ∀ l ∈ w.lines, S.Covers l

section

variable {w : Writer} {level : Int}

/-- A line that is written adds its text to what has been written. -/
@[simp]
theorem within_line {t : Text} : (w.line t level).Within S ↔ w.Within S ∧ S.Covers t := by
  have hline : S.Covers (if t.isEmpty then [] else w.indent level ++ t) ↔ S.Covers t := by
    cases t with
    | nil => simp
    | cons c r => simp [Writer.indent, covers_indentation]
  simp only [Writer.Within, Writer.line, List.forall_mem_append, List.forall_mem_singleton, hline]

/-- An opening brace adds nothing that could break a line. -/
theorem within_openBrace : (w.line "\x7b" level).Within S ↔ w.Within S := by
  rw [within_line, and_iff_left (covers_literal (by decide))]

/-- Nor does a closing brace. -/
theorem within_closeBrace : (w.line "\x7d" level).Within S ↔ w.Within S := by
  rw [within_line, and_iff_left (covers_literal (by decide))]

/-- Steps that each ask for something. -/
theorem within_foldl {α : Type} {f : Writer → α → Writer} {C : α → Prop} {as : List α}
    (hstep : ∀ a ∈ as, ∀ w : Writer, (f w a).Within S ↔ w.Within S ∧ C a) :
    (as.foldl f w).Within S ↔ w.Within S ∧ ∀ a ∈ as, C a := by
  induction as generalizing w with
  | nil => simp
  | cons a r ih =>
      obtain ⟨ha, hr⟩ := List.forall_mem_cons.mp hstep
      rw [List.foldl_cons, ih hr, ha, List.forall_mem_cons, and_assoc]

/-- Steps that ask for nothing. -/
theorem within_foldl_iff {α : Type} {f : Writer → α → Writer} {as : List α}
    (hstep : ∀ a ∈ as, ∀ w : Writer, (f w a).Within S ↔ w.Within S) :
    (as.foldl f w).Within S ↔ w.Within S := by
  rw [within_foldl (C := fun _ => True) (by simpa using hstep)]
  simp

/-- Some lines that are written add each of their texts. -/
@[simp]
theorem within_lineAll {ts : List Text} :
    (w.lineAll ts level).Within S ↔ w.Within S ∧ ∀ t ∈ ts, S.Covers t :=
  within_foldl fun _ _ _ => within_line

/-- Texts on one line each are covered by every class. -/
theorem forall_covers_of_oneLine {ts : List Text} (h : ∀ t ∈ ts, oneLine.Covers t) :
    ∀ t ∈ ts, S.Covers t :=
  fun t ht => (h t ht).of_oneLine

/-- Lines that are single lines ask for nothing. -/
theorem within_lineAll_iff {ts : List Text} (h : ∀ t ∈ ts, oneLine.Covers t) :
    (w.lineAll ts level).Within S ↔ w.Within S := by
  rw [within_lineAll, and_iff_left (forall_covers_of_oneLine h)]

/-- The lines of a captured block are on one line each, whatever the block. -/
@[simp]
theorem within_block {t : Text} : (w.block t level).Within S ↔ w.Within S := by
  simp only [Writer.Within, Writer.block, List.forall_mem_append, and_iff_left_iff_imp]
  exact fun _ => covers_reindent _ _

/-- A blank line adds nothing. -/
@[simp]
theorem within_blank : w.blank.Within S ↔ w.Within S := by
  rw [Writer.blank]
  split
  · rfl
  · rfl
  · simp [Writer.Within, or_imp, forall_and]

/-- Taking blank lines off the end takes away nothing that a class left out. -/
@[simp]
theorem within_trimBlank : w.trimBlank.Within S ↔ w.Within S := by
  have hsplit := List.takeWhile_append_dropWhile (p := List.isEmpty) (l := w.lines.reverse)
  have hempty : ∀ l ∈ w.lines.reverse.takeWhile List.isEmpty, S.Covers l := by
    intro l hl
    have hl' : l = [] := List.isEmpty_iff.mp (List.all_eq_true.mp List.all_takeWhile l hl)
    exact hl' ▸ covers_nil
  constructor
  · intro h l hl
    rw [← List.mem_reverse, ← hsplit, List.mem_append] at hl
    rcases hl with hl | hl
    · exact hempty l hl
    · exact h l (List.mem_reverse.mpr hl)
  · intro h l hl
    exact h l (List.mem_reverse.mp ((List.dropWhile_suffix _).subset (List.mem_reverse.mp hl)))

/-- The start of a region adds its marker. -/
@[simp]
theorem within_regionStart {marker : Text} :
    (w.regionStart marker level).Within S ↔ w.Within S ∧ S.Covers marker := by
  rw [Writer.regionStart]
  split
  · rename_i hmarker
    simp [List.isEmpty_iff.mp hmarker]
  · simp

/-- So does its end. -/
@[simp]
theorem within_regionEnd {marker : Text} :
    (w.regionEnd marker level).Within S ↔ w.Within S ∧ S.Covers marker := by
  rw [Writer.regionEnd]
  split
  · rename_i hmarker
    simp [List.isEmpty_iff.mp hmarker]
  · simp

end

/-! ### Members and constants -/

/-- The keyword of a visibility is on one line. -/
theorem covers_keyword (v : Visibility) : S.Covers v.keyword := by
  cases v <;> exact covers_literal (by decide)

/-- A word that may be left out is covered where it is there. -/
theorem covers_wordIf {b : Bool} {t : Text} (h : S.Covers t) : ∀ u ∈ wordIf b t, S.Covers u := by
  rw [wordIf]
  split
  · simpa using h
  · simp

/-- Words with spaces between them. -/
theorem covers_join_space {ts : List Text} (h : ∀ t ∈ ts, S.Covers t) :
    S.Covers (Text.join " " ts) :=
  (covers_join (covers_literal (by decide))).mpr h

/-- What stands in front of a declaration. -/
theorem covers_modifiers {v : Visibility} {a b : Bool} {t u : Text} (ht : S.Covers t)
    (hu : S.Covers u) : S.Covers (Text.join " " ([v.keyword] ++ wordIf a t ++ wordIf b u)) := by
  refine covers_join_space ?_
  simp only [List.forall_mem_append, List.forall_mem_singleton]
  exact ⟨⟨covers_keyword v, covers_wordIf ht⟩, covers_wordIf hu⟩

section

variable {w : Writer} {level : Int} {types : TypeMap}

/-- The declaration of a member may go over several lines. -/
theorem covers_memberDeclaration (htypes : types.Tidy) {m : Member} (hm : m.Tidy) :
    noReturn.Covers (memberDeclaration types m) := by
  have htype : noReturn.Covers (types.mapType m.type) := covers_mapType htypes hm.type
  have hvalue : ∀ v ∈ m.initializer.map convertValue, noReturn.Covers v := by
    intro v hv
    obtain ⟨u, hu, rfl⟩ := Option.map_eq_some_iff.mp hv
    exact covers_convertValue (hm.initializer u hu)
  simp only [memberDeclaration]
  simp (disch := decide) only [covers_append, covers_literal, htype, hm.name, and_true]
  refine ⟨⟨covers_join_space ?_, ?_⟩, ?_⟩
  · simp only [List.forall_mem_append, List.forall_mem_singleton]
    exact ⟨⟨⟨covers_keyword _, covers_wordIf (covers_literal (by decide))⟩,
      covers_wordIf (covers_literal (by decide))⟩, covers_wordIf (covers_literal (by decide))⟩
  · split <;> exact covers_literal (by decide)
  · split
    · rename_i v hv
      refine covers_append.mpr ⟨covers_literal (by decide), ?_⟩
      split at hv
      · obtain rfl := Option.some.inj hv
        simp (disch := decide) only [covers_append, covers_literal, htype, hm.arraySize, and_self]
      · exact hvalue v hv
    · exact covers_nil

/-- The declaration of a member ends with a semicolon. -/
theorem getLast?_memberDeclaration (m : Member) :
    (memberDeclaration types m).getLast? = some ';' := by
  simp only [memberDeclaration]
  exact List.getLast?_concat

/-- A text with a comment behind it is covered when both are. -/
theorem covers_withComment {t comment : Text} (ht : S.Covers t) (hcomment : S.Covers comment) :
    S.Covers (Writer.withComment t comment) := by
  rw [Writer.withComment]
  split
  · exact ht
  · exact covers_append.mpr ⟨covers_append.mpr ⟨ht, covers_literal (by decide)⟩, hcomment⟩

/-- **Members ask for nothing**: what goes over several lines is cut into them. A declaration ends
with a semicolon, so with nothing behind its first line it is that line. -/
theorem within_member (htypes : types.Tidy) {m : Member} (hm : m.Tidy) :
    (w.member types m level).Within S ↔ w.Within S := by
  have hdeclaration := covers_memberDeclaration htypes hm
  have hcomment : S.Covers (Text.cutLine m.trailingComment).1 :=
    (covers_cutLine hm.trailingComment).of_oneLine
  have hfirst : S.Covers (Text.cutLine (memberDeclaration types m)).1 :=
    (covers_cutLine hdeclaration).of_oneLine
  have hopen : ((w.regionStart m.regionStart level).lineAll m.comments level).Within S
      ↔ w.Within S := by
    rw [within_lineAll_iff hm.comments, within_regionStart, and_iff_left hm.regionStart.of_oneLine]
  have hmiddle : ∀ w : Writer,
      (if (Text.cutLine (memberDeclaration types m)).2.isEmpty then
        w.line (Writer.withComment (memberDeclaration types m)
          (Text.cutLine m.trailingComment).1) level
      else (w.line (Text.cutLine (memberDeclaration types m)).1 level).block
        (Writer.withComment (Text.cutLine (memberDeclaration types m)).2
          (Text.cutLine m.trailingComment).1) level).Within S ↔ w.Within S := by
    intro w
    split
    · rename_i hrest
      have hwhole := cutLine_fst_eq (List.isEmpty_iff.mp hrest)
        (by simp [getLast?_memberDeclaration])
      simp [covers_withComment (hwhole ▸ hfirst) hcomment]
    · simp [hfirst]
  simp only [Writer.member]
  rw [within_regionEnd, and_iff_left hm.regionEnd.of_oneLine]
  split
  · rw [hmiddle, hopen]
  · rw [within_block, hmiddle, hopen]

/-- The declaration of a tidy constant is on one line. -/
theorem covers_declaration {c : Constant} (hc : c.Tidy) {access? : Option Text}
    (haccess : ∀ a ∈ access?, S.Covers a) : S.Covers (c.declaration access?) := by
  have hopen : S.Covers (access?.getD c.access) := by
    cases access? with
    | none =>
        rw [Option.getD_none, Constant.access]
        split <;> exact covers_literal (by decide)
    | some a => exact haccess a rfl
  have hcomment : S.Covers
      (if c.trailingComment.isEmpty then [] else ' ' :: c.trailingComment) := by
    split
    · exact covers_nil
    · exact covers_cons.mpr ⟨has_space, hc.trailingComment.of_oneLine⟩
  simp (disch := decide) only [Constant.declaration, covers_append, covers_literal, hopen,
    hc.type.of_oneLine, hc.name.of_oneLine, hc.literal.of_oneLine, hcomment, and_self]

/-- **Nor do constants.** -/
theorem within_constants {cs : List Constant} (hcs : ∀ c ∈ cs, c.Tidy) {access? : Option Text}
    (haccess : ∀ a ∈ access?, S.Covers a) :
    (w.constants cs level access?).Within S ↔ w.Within S := by
  refine within_foldl_iff fun p hp w => ?_
  have hc := hcs p.1 (List.fst_mem_of_mem_zipIdx hp)
  rw [within_line, and_iff_left (covers_declaration hc haccess), within_lineAll_iff hc.comments]
  split
  · exact within_blank
  · exact Iff.rfl

end

end Sharpen
