import Sharpen.Proofs.Decl.Climbing
import Sharpen.Proofs.Decl.WiderGap
import Sharpen.Proofs.Header.OneClass
import Sharpen.Proofs.Header.Outline
import Sharpen.Proofs.Header.Persistence

/-!
# Comments Behind Declarations

A line comment behind the semicolon of a data member is read with it, if nothing but blanks stands
between them. A method is read up to its semicolon or closing brace, and what follows on the line is
passed over as soon as it holds no code: the comments of a method are those above it and those in
its parameter list.

The comment is any text behind `//` up to the end of the line. For members it is taken with the
member and can be found there in the finished header. For methods the statement is negative: no
comment of the method has the text, unless it also stands above or in the parameters. Both start
from a reading that comes to the declaration, which the texts of a header decide.

## Main definitions

* `Page.LineComment` — a comment behind a place of a line; `text_trailingComment_eq_iff` says when
  it is taken.
* `Page.ComesTo` — the reading comes to a declaration; `ComesTo.exists_member` and
  `ComesTo.exists_method` are what is left of it in the header.
* `Page.HasCode` — at `pos`, in the body of the type `o`, there is code that is no directive.
* `Page.DeclaresMember` — what stands at `pos` is the declaration of the member `m`, up to the given
  semicolon.
* `Page.DeclaresMethod` — what stands at `pos` is the declaration of the method `m`, up to the
  position `stop`.

## Main results

* `lineComment_kept_iff` — which comments behind a declaration are kept with it.
-/

namespace Sharpen

/-! ### Behind a place of a line -/

/-- A line comment stands behind position `i`, after `gap`, on the same line. -/
def Page.LineComment (page : Page) (i : Nat) (gap comment : Text) : Prop :=
  page.text.slice i (page.lineEnd i) = gap ++ comment ∧ comment.startsWith "//" = true
deriving Decidable

/-- A line that starts with a comment is cut at its end like any other. -/
theorem cutLine_block (r : Text) :
    (Text.cutLine ('/' :: '*' :: r)).1 = '/' :: '*' :: (Text.cutLine r).1 := by
  rw [Text.cutLine, Text.cutLine, Text.cutAt, if_neg (by decide), Text.cutAt, if_neg (by decide)]
  cases Text.cutAt '\n' r <;> rfl

/-- A block comment ends behind its opening mark. -/
theorem prefix_slice_block {t : Text} {start : Nat}
    (h : Text.startsWith (t.drop start) "/*" = true) :
    ∃ r, t.slice start (((Text.findFrom? t "*/" (start + 2)).map (· + 2)).getD t.length)
      = '/' :: '*' :: r := by
  rw [Text.startsWith, List.isPrefixOf_iff_prefix] at h
  have hlength : 2 ≤ t.length - start := by simpa using h.length_le
  have hstop : 2 ≤ ((Text.findFrom? t "*/" (start + 2)).map (· + 2)).getD t.length - start := by
    cases hfind : Text.findFrom? t "*/" (start + 2) with
    | none => simpa using hlength
    | some k =>
        obtain ⟨j, -, rfl⟩ := Option.map_eq_some_iff.mp hfind
        simp only [Option.map_some, Option.getD_some]
        omega
  obtain ⟨r, hr⟩ := List.prefix_take_iff.mpr ⟨h, hstop⟩
  exact ⟨r, by rw [Text.slice, List.drop_take, ← hr]; rfl⟩

/-- What a line starts with, but for blanks, stands in the text. -/
theorem startsWith_drop_of_trimStart {t mark : Text} {i j : Nat}
    (h : Text.startsWith (Text.trimStart (t.slice i j)) mark = true) :
    Text.startsWith
      (t.drop (i + ((t.slice i j).length - (Text.trimStart (t.slice i j)).length))) mark
        = true := by
  rw [Text.startsWith, List.isPrefixOf_iff_prefix] at h ⊢
  have hdrop : Text.trimStart (t.slice i j) = (t.slice i j).drop _ :=
    List.suffix_iff_eq_drop.mp (List.dropWhile_suffix _)
  rw [hdrop, ← Text.slice_add] at h
  refine h.trans ?_
  rw [Text.slice, List.drop_take]
  exact List.take_prefix _ _

/-- **Which line comments are taken**: those that only blanks separate from the declaration. -/
theorem text_trailingComment_eq_iff {page : Page} {i : Nat} {gap comment : Text}
    (h : page.LineComment i gap comment) :
    (trailingComment page i).text = comment.trimEnd ↔ gap.isBlank = true := by
  obtain ⟨hrest, hcomment⟩ := h
  obtain ⟨c, hc⟩ := List.isPrefixOf_iff_prefix.mp hcomment
  obtain rfl : '/' :: '/' :: c = comment := hc
  have hcode : Text.isBlank ('/' :: '/' :: c) = false := rfl
  obtain ⟨v, hv⟩ := Text.exists_trimEnd_append (x := '/') (by decide) ['/'] c
  have hmark : Text.trimEnd ('/' :: '/' :: c) = '/' :: '/' :: v := hv
  constructor
  · intro htext
    rw [← Bool.not_eq_false]
    intro hgap
    have hstart := Text.trimStart_append_of_isBlank_eq_false hgap ('/' :: '/' :: c)
    rw [← hrest] at hstart
    rw [trailingComment] at htext
    dsimp only at htext
    split at htext
    · -- The first of two line comments has the second in it.
      rw [hstart, Text.trimEnd_append_of_isBlank_eq_false hcode] at htext
      have hnil := List.append_left_eq_self.mp htext
      rw [Text.trimStart, List.dropWhile_eq_nil_iff, ← List.all_eq_true] at hnil
      exact Bool.eq_false_iff.mp hgap hnil
    split at htext
    · rename_i hblock
      obtain ⟨r, hr⟩ := prefix_slice_block (startsWith_drop_of_trimStart hblock)
      rw [hr, cutLine_block, hmark] at htext
      obtain ⟨w, hw⟩ := Text.exists_trimEnd_append (x := '*') (by decide) ['/'] (Text.cutLine r).1
      change Text.trimEnd ('/' :: '*' :: (Text.cutLine r).1) = '/' :: '*' :: w at hw
      rw [hw] at htext
      cases htext
    · rw [hmark] at htext
      cases htext
  · intro hgap
    have hstart : Text.trimStart (page.text.slice i (page.lineEnd i)) = '/' :: '/' :: c := by
      rw [hrest, Text.trimStart_blank_append hgap]
      rfl
    rw [trailingComment]
    dsimp only
    rw [hstart, if_pos hcomment]

/-! ### At a declaration -/

/-- At `pos`, in the body of the type `o`, there is code that is no directive. -/
def Page.HasCode (page : Page) (o : OpenType) (pos : Nat) : Prop :=
  pos < o.bodyEnd ∧
    Text.isBlank (page.masked.slice pos (page.lineEndWithin pos o.bodyEnd)) = false ∧
    Text.startsWith (page.lineWithin pos o.bodyEnd) "#" = false
deriving Decidable

/-- **The reading comes to a declaration**: to code in the body of an open type, which gets a
name. -/
structure Page.ComesTo (page : Page) (s : HeaderScan) (o : OpenType) (pos : Nat) : Prop where
  reaches : page.Reaches s pos
  current : s.current = some o
  named : o.IsNamed page
  code : page.HasCode o pos

/-- What stands at `pos` is the declaration of the member `m`, up to the given semicolon. -/
def Page.DeclaresMember (page : Page) (o : OpenType) (pos semicolon : Nat) (m : Member) : Prop :=
  let start := page.codeStart pos o.bodyEnd
  page.construct o.decl.name o.bodyEnd start = .member semicolon ∧
    memberDecl? o.visibility (memberCode (page.text.slice start (semicolon + 1))) = some m
deriving Decidable

/-- What stands at `pos` is the declaration of the method `m`, up to the position `stop`. -/
def Page.DeclaresMethod (page : Page) (o : OpenType) (pos stop : Nat) (m : Method) : Prop :=
  let start := page.codeStart pos o.bodyEnd
  page.construct o.decl.name o.bodyEnd start = .method stop ∧
    methodDecl page.stem o.decl.name o.visibility start (page.masked.slice start stop)
      (page.text.slice start stop) = .method m
deriving Decidable

/-- The comment that a search finds above the line of `pos`, when there is nothing but the lines
above. -/
def Page.commentsAbove (page : Page) (s : HeaderScan) (pos : Nat) : List Text :=
  let line := page.lineOf pos
  (collectComments (page.lines.take line) line s.claimed).lines

namespace Page.ComesTo

variable {page : Page} {s : HeaderScan} {o : OpenType} {pos : Nat}

/-- What a declaration adds to the open type is there at the end. -/
theorem exists_types (h : page.ComesTo s o pos) (hpage : page.masked.length = page.text.length)
    {P : TypeDecl → Prop} (hP : page.Lasting P)
    (hread : ∃ o', (insideStep page s o pos).1.current = some o' ∧ o'.IsNamed page ∧ P o'.decl) :
    ∃ d ∈ (readHeader page).1.types, P d := by
  have hlimit := (h.reaches.placedAt hpage o h.current).1.bodyEnd_le hpage
  have hinside := h.code.1
  have hstep : headerStep page s pos = insideStep page s o pos := by
    rw [headerStep, h.current]
    exact if_neg (by omega)
  have hnext := h.reaches.step (show pos < page.text.length by omega)
  rw [hstep] at hnext
  exact HeaderScan.HasRead.exists_types (Or.inl hread) hP hnext hpage

/-- The step takes the construct it comes to. -/
theorem taken (h : page.ComesTo s o pos) (hmask : page.masked = maskCode page.text) :
    (page.construct o.decl.name o.bodyEnd (page.codeStart pos o.bodyEnd)).Taken page s o
      (page.codeStart pos o.bodyEnd) (page.lineOf pos) (insideStep page s o pos) := by
  have hpage := Page.length_masked hmask
  have hlimit := (h.reaches.placedAt hpage o h.current).1.bodyEnd_le hpage
  obtain ⟨hinside, hcode, hdirective⟩ := h.code
  exact insideStep_taken hmask (Nat.le_of_lt hinside) (hpage ▸ hlimit) hcode hdirective

/-- **A member that is declared is in the header**, with the comment above it and the one behind
it. -/
theorem exists_member (h : page.ComesTo s o pos) (hmask : page.masked = maskCode page.text)
    {semicolon : Nat} {m : Member} (hm : page.DeclaresMember o pos semicolon m) :
    ∃ d ∈ (readHeader page).1.types, ∃ m' ∈ d.members, ∃ regionStart regionEnd, m' = { m with
      order := s.order + 1
      comments := (collectComments page.lines (page.lineOf pos)
        (s.claimed ++ (trailingComment page (semicolon + 1)).lines)).lines
      trailingComment := (trailingComment page (semicolon + 1)).text
      regionStart := regionStart
      regionEnd := regionEnd } := by
  obtain ⟨hconstruct, hread⟩ := hm
  have hstep := h.taken hmask
  rw [hconstruct, Construct.Taken, memberStep] at hstep
  simp only [hread] at hstep
  have hcurrent := congrArg (fun r => r.1.current) hstep
  refine h.exists_types (Page.length_masked hmask) (page.lasting_exists_member ?_)
    ⟨_, hcurrent, h.named, _, ?_, o.pendingRegion, m.regionEnd, rfl⟩
  · rintro _ marker ⟨regionStart, -, rfl⟩
    exact ⟨regionStart, marker, rfl⟩
  · exact List.mem_append_right _ (List.mem_singleton_self _)

/-- **A method that is declared is in the header**, with the comment above it. -/
theorem exists_method (h : page.ComesTo s o pos) (hmask : page.masked = maskCode page.text)
    {stop : Nat} {m : Method} (hm : page.DeclaresMethod o pos stop m) :
    ∃ d ∈ (readHeader page).1.types, ∃ m' ∈ d.methods,
      ∃ owner isConstructor regionStart regionEnd, m' = { m with
        order := s.order + 1
        headerComments := (collectComments page.lines (page.lineOf pos) s.claimed).lines
        owner := owner
        isConstructor := isConstructor
        headerRegionStart := regionStart
        headerRegionEnd := regionEnd } := by
  obtain ⟨hconstruct, hread⟩ := hm
  have hstep := h.taken hmask
  rw [hconstruct, Construct.Taken, methodStep] at hstep
  simp only [hread] at hstep
  have hcurrent := congrArg (fun r => r.1.current) hstep
  refine h.exists_types (Page.length_masked hmask) (page.lasting_exists_method ?_ ?_)
    ⟨_, hcurrent, h.named, _, ?_, m.owner, m.isConstructor,
      o.pendingRegion, m.headerRegionEnd, rfl⟩
  · rintro _ marker ⟨owner, isConstructor, regionStart, -, rfl⟩
    exact ⟨owner, isConstructor, regionStart, marker, rfl⟩
  · rintro _ name ⟨owner, isConstructor, regionStart, regionEnd, rfl⟩
    exact ⟨name, _, regionStart, regionEnd, rfl⟩
  · exact List.mem_append_right _ (List.mem_singleton_self _)

end Page.ComesTo

/-! ### Kept comments -/

/-- A later position is on no earlier line. -/
theorem Page.lineOf_mono (page : Page) {i j : Nat} (h : i ≤ j) : page.lineOf i ≤ page.lineOf j :=
  (List.take_prefix_take_left h).sublist.count_le _

/-- The lines that a comment behind a declaration takes are not above the declaration. -/
theorem le_of_mem_lines_trailingComment {page : Page} {i line : Nat}
    (h : line ∈ (trailingComment page i).lines) : page.lineOf i ≤ line := by
  simp only [trailingComment] at h
  split at h
  · cases h
  split at h
  · exact Nat.le_trans (page.lineOf_mono (Nat.le_add_right _ _)) (List.mem_range'_1.mp h).1
  · cases h

/-- The comments in the parameter list of a method. -/
def Method.parameterComments (m : Method) : List Text :=
  m.parameters.flatMap fun p => p.comments.map ParamComment.text

/-- All comments of a method. -/
def Method.commentTexts (m : Method) : List Text :=
  m.headerComments ++ m.sourceComments ++ m.parameterComments

/-- **Which comments behind a declaration are kept with it**: behind a member those that only blanks
separate from its semicolon, and behind a method none. The other comments of a declaration are those
above it and those in a parameter list. -/
theorem lineComment_kept_iff {text path : Text} {s : HeaderScan} {o : OpenType} {pos : Nat}
    (h : (Page.ofText text path).ComesTo s o pos) :
    (∀ semicolon m, (Page.ofText text path).DeclaresMember o pos semicolon m →
      ∃ d ∈ (parseHeader text path).1.types, ∃ m' ∈ d.members,
        m'.name = m.name ∧ m'.type = m.type ∧ m'.order = s.order + 1 ∧
        m'.comments = (Page.ofText text path).commentsAbove s pos ∧
        ∀ gap comment, (Page.ofText text path).LineComment (semicolon + 1) gap comment →
          (m'.trailingComment = comment.trimEnd ↔ gap.isBlank = true)) ∧
    ∀ stop m, (Page.ofText text path).DeclaresMethod o pos stop m →
      ∃ d ∈ (parseHeader text path).1.types, ∃ m' ∈ d.methods,
        m'.name = m.name ∧ m'.position = (Page.ofText text path).codeStart pos o.bodyEnd ∧
        m'.order = s.order + 1 ∧
        m'.commentTexts = (Page.ofText text path).commentsAbove s pos ++ m.parameterComments := by
  have hmask : (Page.ofText text path).masked = maskCode (Page.ofText text path).text := rfl
  refine ⟨fun semicolon m hm => ?_, fun stop m hm => ?_⟩
  · obtain ⟨d, hd, m', hm', _, _, rfl⟩ := h.exists_member hmask hm
    refine ⟨d, hd, _, hm', rfl, rfl, rfl, ?_, fun gap comment => text_trailingComment_eq_iff⟩
    have hstart : pos ≤ semicolon :=
      Nat.le_trans (Nat.le_add_right _ _)
        (Text.findChar?_eq_some (findChar?_of_construct_eq_member hm.1)).1
    refine collectComments_take _ _ _ fun line hline => ?_
    exact Nat.le_trans (Page.lineOf_mono _ (Nat.le_succ_of_le hstart))
      (le_of_mem_lines_trailingComment hline)
  · obtain ⟨d, hd, m', hm', _, _, _, _, rfl⟩ := h.exists_method hmask hm
    obtain ⟨hposition, -, hsource⟩ := untouched_methodDecl hm.2
    refine ⟨d, hd, _, hm', rfl, hposition, rfl, ?_⟩
    have habove := collectComments_take (Page.ofText text path).lines _ s.claimed
      (List.forall_mem_nil ((Page.ofText text path).lineOf pos ≤ ·))
    rw [List.append_nil] at habove
    rw [Method.commentTexts, hsource, List.append_nil]
    exact congrArg (· ++ m.parameterComments) habove

/-- A class with a member and a method, each with a comment behind it. -/
def notedText : Text :=
  "class Shape \x7b int width; // pixels\n  void grow(); // twice\n\x7d;\n"

/-- The page of that class. -/
def Page.ofNoted : Page :=
  Page.ofText notedText "Shape.h"

/-- The reading of that page, step by step. -/
def Page.readNoted : Nat → HeaderScan × Nat
  | 0 => (Page.ofNoted.firstScan, 0)
  | n + 1 => headerStep Page.ofNoted (readNoted n).1 (readNoted n).2

/-- The first two steps of the example are steps of the reading. -/
theorem reaches_readNoted {n : Nat} (hn : n ≤ 2) :
    Page.ofNoted.Reaches (Page.readNoted n).1 (Page.readNoted n).2 := by
  have hmore : 0 < Page.ofNoted.text.length ∧
      (Page.readNoted 1).2 < Page.ofNoted.text.length := by
    decide +kernel
  obtain rfl | rfl | rfl : n = 0 ∨ n = 1 ∨ n = 2 := by omega
  · exact .start
  · exact Page.Reaches.start.step hmore.1
  · exact (Page.Reaches.start.step hmore.1).step hmore.2

/-- The first step leads to the member. -/
theorem exists_comesTo_width : ∃ s o pos, Page.ofNoted.ComesTo s o pos ∧
    Page.ofNoted.DeclaresMember o pos 23 { type := "int", name := "width" } := by
  have hread : (Page.readNoted 1).1.current.any (fun o =>
      o.decl.name ≠ [] ∧ Page.ofNoted.HasCode o (Page.readNoted 1).2 ∧
      Page.ofNoted.DeclaresMember o (Page.readNoted 1).2 23 { type := "int", name := "width" })
        = true := by
    decide +kernel
  obtain ⟨o, hs, hfacts⟩ := (Option.any_eq_true _ _).mp hread
  obtain ⟨hname, hcode, hwidth⟩ := of_decide_eq_true hfacts
  exact ⟨_, o, _, ⟨reaches_readNoted (by decide), hs, Or.inl hname, hcode⟩, hwidth⟩

/-- The second one leads to the method, which has no comment above it. -/
theorem exists_comesTo_grow : ∃ s o pos, Page.ofNoted.ComesTo s o pos ∧
    Page.ofNoted.commentsAbove s pos = [] ∧ Page.ofNoted.DeclaresMethod o pos 49
      { name := "grow", returnType := "void", owner := "Shape", originFile := "Shape",
        position := 37 } := by
  have hread : (Page.readNoted 2).1.current.any (fun o =>
      o.decl.name ≠ [] ∧ Page.ofNoted.HasCode o (Page.readNoted 2).2 ∧
      Page.ofNoted.commentsAbove (Page.readNoted 2).1 (Page.readNoted 2).2 = [] ∧
      Page.ofNoted.DeclaresMethod o (Page.readNoted 2).2 49
        { name := "grow", returnType := "void", owner := "Shape", originFile := "Shape",
          position := 37 }) = true := by
    decide +kernel
  obtain ⟨o, hs, hfacts⟩ := (Option.any_eq_true _ _).mp hread
  obtain ⟨hname, hcode, habove, hgrow⟩ := of_decide_eq_true hfacts
  exact ⟨_, o, _, ⟨reaches_readNoted (by decide), hs, Or.inl hname, hcode⟩, habove, hgrow⟩

/-- A comment behind a member is kept, one behind a method is not. -/
theorem lineComment_kept_shape :
    (∃ s o pos, (Page.ofText notedText "Shape.h").ComesTo s o pos ∧
      ∃ d ∈ (parseHeader notedText "Shape.h").1.types, ∃ m ∈ d.members,
        m.name = "width" ∧ m.trailingComment = "// pixels") ∧
    ∃ s o pos, (Page.ofText notedText "Shape.h").ComesTo s o pos ∧
      ∃ d ∈ (parseHeader notedText "Shape.h").1.types, ∃ m ∈ d.methods,
        m.name = "grow" ∧ m.commentTexts = [] := by
  constructor
  · obtain ⟨s, o, pos, h, hwidth⟩ := exists_comesTo_width
    obtain ⟨d, hd, m, hm, hname, -, -, -, hcomment⟩ := (lineComment_kept_iff h).1 _ _ hwidth
    have hbehind : Page.ofNoted.LineComment 24 " " "// pixels" := by decide +kernel
    exact ⟨s, o, pos, h, d, hd, m, hm, hname, (hcomment _ _ hbehind).mpr (by decide)⟩
  · obtain ⟨s, o, pos, h, habove, hgrow⟩ := exists_comesTo_grow
    obtain ⟨d, hd, m, hm, hname, -, -, hcomments⟩ := (lineComment_kept_iff h).2 _ _ hgrow
    refine ⟨s, o, pos, h, d, hd, m, hm, hname, ?_⟩
    rw [hcomments]
    exact congrArg (· ++ []) habove

/-- **A comment behind a method is lost**, also where only blanks separate it from the semicolon: no
method of the header has it. -/
theorem not_forall_lineComment_kept :
    ¬ ∀ (text path : Text) (s : HeaderScan) (o : OpenType) (pos stop : Nat) (m : Method)
        (gap comment : Text),
      (Page.ofText text path).ComesTo s o pos →
      (Page.ofText text path).DeclaresMethod o pos stop m →
      (Page.ofText text path).LineComment stop gap comment → gap.isBlank = true →
      ∃ d ∈ (parseHeader text path).1.types, ∃ m' ∈ d.methods, ∃ t ∈ m'.commentTexts,
        Text.hasInfix t comment.trimEnd = true := by
  intro hkept
  obtain ⟨s, o, pos, h, -, hgrow⟩ := exists_comesTo_grow
  have hbehind : Page.ofNoted.LineComment 49 " " "// twice" := by decide +kernel
  obtain ⟨d, hd, m, hm, t, ht, -⟩ :=
    hkept notedText "Shape.h" s o pos 49 _ " " "// twice" h hgrow hbehind (by decide)
  have hnone : ∀ d ∈ (parseHeader notedText "Shape.h").1.types, ∀ m ∈ d.methods,
      m.commentTexts = [] := by
    decide +kernel
  rw [hnone d hd m hm] at ht
  cases ht

end Sharpen
