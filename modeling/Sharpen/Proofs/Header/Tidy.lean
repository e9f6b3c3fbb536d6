import Sharpen.Proofs.Decl.Tidy
import Sharpen.Proofs.Header.Growth
import Sharpen.Proofs.Header.Masked
import Sharpen.Proofs.Text.Results

/-!
# Tidy Headers

A header is read from a text whose line breaks have been brought into one form, so that it has no
carriage returns. Everything that a step of the reading takes from such a text is tidy: lines of
comments and markers of regions end with their lines, heads and names are words, and members are
read with single spaces. The steps of the reading therefore keep what has been read tidy.

There are two classes of characters in play. Lines of the page are on single lines, and texts
between two positions of it have no carriage returns. Every function of the reader is shown to keep
the class of the text that it is given; that is one lemma for each of them, in the order of the
reader. The steps then follow from what they add.

## Main definitions

* `Page.Tidy` — a page without carriage returns; `Page.tidy_ofText` makes one of every text.
* `MemberParts.Within` — the parts of a member declaration are parts of its code.
* `OpenType.Tidy` — an open type is tidy, and so is the marker that its next item takes.
* `HeaderScan.Tidy` — what has been read is tidy.
* `Header.Tidy` — what is read of a header is tidy.

## Main results

* `tidy_memberDecl?`, `tidy_methodDecl` — members and methods.
* `HeaderScan.Tidy.moves` — no step takes away that what has been read is tidy.
* `tidy_parseHeader` — all types of a header are tidy, and its banner is a list of lines.
* `OpenType.Tidy.grows` — what a step adds to an open type is tidy.
-/

namespace Sharpen

open LineClass

/-! ### Members -/

section

variable {S : LineClass} {t : Text}

/-- A text without its first blank is covered with it. -/
theorem covers_dropBlank (h : S.Covers t) : S.Covers (dropBlank t) := by
  rw [dropBlank]
  split
  · exact h.subset (List.drop_subset _ _)
  · exact h

/-- So is what stands behind one of some texts. -/
theorem covers_afterOneOf? {ws : List Text} {r : Text} (h : S.Covers t)
    (hafter : afterOneOf? ws t = some r) : S.Covers r := by
  obtain ⟨w, -, hw⟩ := List.exists_of_findSome?_eq_some hafter
  split at hw
  · obtain rfl := Option.some.inj hw
    exact h.subset (List.drop_subset _ _)
  · cases hw

/-- So is what stands behind one of some words. -/
theorem covers_afterWords {ws : List Text} (h : S.Covers t) :
    ∀ r ∈ afterWords ws t, S.Covers r := by
  fun_induction afterWords ws t with
  | case1 t hafter => simpa using h
  | case2 t r hafter hlt ih =>
      intro u hu
      rcases List.mem_append.mp hu with hu | hu
      · exact ih (covers_afterOneOf? h hafter) u hu
      · exact List.mem_singleton.mp hu ▸ h
  | case3 t r hafter hlt => simpa using h

/-- So is what stands behind the name of a type. -/
theorem covers_afterTypeName (h : S.Covers t) : ∀ r ∈ afterTypeName t, S.Covers r := by
  intro r hr
  obtain ⟨i, -, rfl⟩ := List.mem_map.mp hr
  exact h.subset (List.drop_subset _ _)

/-- So is what stands behind the arguments of a template. -/
theorem covers_afterTemplate (h : S.Covers t) : ∀ r ∈ afterTemplate t, S.Covers r := by
  have hblank := covers_dropBlank h
  rw [afterTemplate]
  split
  · rename_i u hu
    rw [hu] at hblank
    intro r hr
    rcases List.mem_append.mp hr with hr | hr
    · obtain ⟨i, -, rfl⟩ := List.mem_map.mp hr
      exact (covers_cons.mp hblank).2.subset (List.drop_subset _ _)
    · exact List.mem_singleton.mp hr ▸ h
  · simpa using h

/-- So is what stands behind a `const`. -/
theorem covers_afterConst (h : S.Covers t) : ∀ r ∈ afterConst t, S.Covers r := by
  rw [afterConst]
  split
  · simpa using ⟨h.subset (List.drop_subset 6 t), h⟩
  · simpa using h

/-- So is what stands behind the stars and ampersands of a type. -/
theorem covers_afterMarkers (h : S.Covers t) : ∀ r ∈ afterMarkers t, S.Covers r := by
  simp only [afterMarkers]
  split
  · simpa using h
  · simpa using ⟨(covers_dropBlank h).subset (List.drop_subset _ _), h⟩

/-- The bound of an array, and what stands in front of it, have characters of the text. -/
theorem covers_arrayBound (h : S.Covers t) :
    (∀ size ∈ (arrayBound t).1, S.Covers size) ∧ S.Covers (arrayBound t).2 := by
  unfold arrayBound
  split
  · have hr := (covers_cons.mp h).2
    split
    · rename_i size r hcut
      obtain ⟨heq, -⟩ := cutAt_eq_some hcut
      rw [heq] at hr
      obtain ⟨hsize, hrest⟩ := covers_append.mp hr
      exact ⟨by simpa using covers_trim hsize, (covers_cons.mp hrest).2⟩
    · exact ⟨by simp, h⟩
  · exact ⟨by simp, h⟩

/-- The value of a member has characters of the text it is read from. -/
theorem covers_memberValue? {value : Option Text} (h : S.Covers t)
    (hread : memberValue? t = some value) : ∀ v ∈ value, S.Covers v := by
  unfold memberValue? at hread
  split at hread
  · split at hread
    · obtain rfl := Option.some.inj hread
      simpa using covers_trim ((covers_cons.mp h).2.subset (List.dropLast_subset _))
    · cases hread
  · split at hread
    · obtain rfl := Option.some.inj hread
      simp
    · cases hread

/-- The parts of a member declaration are parts of its code. -/
structure MemberParts.Within (S : LineClass) (parts : MemberParts) : Prop where
  type : S.Covers parts.type
  name : S.Covers parts.name
  size : ∀ v ∈ parts.size, S.Covers v
  value : ∀ v ∈ parts.value, S.Covers v

/-- So have the name, the bound and the value of a member. -/
theorem covers_memberTail? {name : Text} {size value : Option Text} (h : S.Covers t)
    (hread : memberTail? t = some (name, size, value)) :
    S.Covers name ∧ (∀ v ∈ size, S.Covers v) ∧ ∀ v ∈ value, S.Covers v := by
  simp only [memberTail?] at hread
  have hblank := covers_dropBlank h
  have hbound := covers_arrayBound (covers_dropBlank (hblank.subset
    (List.drop_subset ((dropBlank t).takeWhile isWord).length _)))
  split at hread
  · cases hread
  · obtain ⟨v, hv, heq⟩ := Option.map_eq_some_iff.mp hread
    simp only [Prod.mk.injEq] at heq
    obtain ⟨rfl, rfl, rfl⟩ := heq
    exact ⟨hblank.subset (List.takeWhile_prefix _).subset, hbound.1,
      covers_memberValue? (covers_dropBlank hbound.2) hv⟩

/-- So have all parts of a member. -/
theorem within_memberParts? {parts : MemberParts} (h : S.Covers t)
    (hread : memberParts? t = some parts) : parts.Within S := by
  obtain ⟨start, hstart, h₁⟩ := List.exists_of_findSome?_eq_some hread
  obtain ⟨r₁, hr₁, h₂⟩ := List.exists_of_findSome?_eq_some h₁
  obtain ⟨r₂, hr₂, h₃⟩ := List.exists_of_findSome?_eq_some h₂
  obtain ⟨r₃, hr₃, h₄⟩ := List.exists_of_findSome?_eq_some h₃
  obtain ⟨r₄, hr₄, h₅⟩ := List.exists_of_findSome?_eq_some h₄
  obtain ⟨r₅, hr₅, h₆⟩ := List.exists_of_findSome?_eq_some h₅
  obtain ⟨⟨name, size, value⟩, htail, rfl⟩ := Option.map_eq_some_iff.mp h₆
  have hs := covers_afterWords h start hstart
  have hmarkers := covers_afterConst (covers_afterTemplate (covers_afterTypeName
    (covers_afterWords hs r₁ hr₁) r₂ hr₂) r₃ hr₃) r₄ hr₄
  obtain ⟨hname, hsize, hvalue⟩ := covers_memberTail? (covers_afterMarkers hmarkers r₅ hr₅) htail
  exact ⟨hs.subset (List.take_subset _ _), hname, hsize, hvalue⟩

end

/-- **Members are tidy**, whatever they are read from: their code has single spaces only. -/
theorem tidy_memberDecl? {visibility : Visibility} {t : Text} {m : Member}
    (hread : memberDecl? visibility (memberCode t) = some m) : m.Tidy := by
  obtain ⟨parts, hparts, rfl⟩ := Option.map_eq_some_iff.mp hread
  have hcode : noReturn.Covers (memberCode t) := covers_trim (covers_squeeze _)
  have hwithin := within_memberParts? hcode hparts
  have hspace : noReturn.Covers [' '] := covers_literal (by decide)
  exact {
    type := covers_normalizeType (covers_replaceWord hwithin.type hspace)
    name := hwithin.name
    arraySize := by
      cases hsize : parts.size with
      | none => exact covers_nil
      | some size => exact hwithin.size size hsize
    initializer := hwithin.value
    trailingComment := covers_nil
    comments := by simp
    regionStart := covers_nil
    regionEnd := covers_nil }

/-! ### Methods -/

section

variable {S : LineClass} {t : Text}

/-- The name of a method, and what stands before it, have characters of the text. -/
theorem covers_methodName? {name before : Text} (h : S.Covers t)
    (hread : methodName? t = some (name, before)) : S.Covers name ∧ S.Covers before := by
  have hlast : S.Covers ((lastWord t).dropWhile fun c => !isIdentStart c) := by
    refine h.subset fun c hc => ?_
    have hword := List.mem_reverse.mp ((List.dropWhile_suffix _).subset hc)
    exact List.mem_reverse.mp ((List.takeWhile_prefix _).subset hword)
  simp only [methodName?] at hread
  split at hread
  · cases hread
  · split at hread
    · obtain ⟨rfl, rfl⟩ := Prod.mk.inj (Option.some.inj hread)
      exact ⟨covers_cons.mpr ⟨S.has_of_ne (by decide) (by decide), hlast⟩,
        (h.subset (List.take_subset _ _)).subset (List.dropLast_subset _)⟩
    · obtain ⟨rfl, rfl⟩ := Prod.mk.inj (Option.some.inj hread)
      exact ⟨hlast, h.subset (List.take_subset _ _)⟩

/-- A name without the scope in front of it is covered with the name. -/
theorem covers_dropScope (h : S.Covers t) : S.Covers (dropScope t) := by
  simp only [dropScope]
  split
  · split
    · exact h
    · refine covers_trim (Covers.subset ?_ (List.take_subset _ _))
      exact covers_trimEnd (h.subset (List.take_subset _ _))
  · exact h

end

/-- The initializers that are read behind a method are tidy. -/
theorem tidy_initializers_methodTail (masked text : Text) :
    ∀ i ∈ (methodTail masked text).initializers, i.Tidy := by
  rw [methodTail]
  split
  · simp
  · dsimp only
    split
    · simp
    · exact tidy_parseInitializers _

/-- **Methods are tidy** if their declarations have no carriage returns. The forms of a declaration
differ in the body only. -/
theorem tidy_methodDecl {stem owner masked text : Text} {visibility : Visibility} {position : Nat}
    {m : Method} (h : noReturn.Covers text) (hstem : oneLine.Covers stem)
    (hread : methodDecl stem owner visibility position masked text = .method m) : m.Tidy := by
  obtain ⟨closing, name, before, -, hname, hm⟩ := exists_of_methodDecl hread
  have hwords : oneLine.Covers (Text.join " " ((Text.words (eraseDeclspecs [' '] (masked.take
      (parametersStart masked)))).filter
        fun w => !methodKeywords.contains w)) :=
    (covers_join (covers_literal (by decide))).mpr fun w hw =>
      covers_words _ w (List.mem_filter.mp hw).1
  obtain ⟨hname', hbefore⟩ := covers_methodName? hwords hname
  have hdeclared :
      (declaredMethod stem owner visibility position masked text closing name before).Tidy := {
    name := hname'
    returnType := covers_normalizeType (covers_dropScope (covers_trim hbefore))
    parameters := tidy_parseParameters (covers_slice h _ closing)
    initializers := tidy_initializers_methodTail _ _
    inlineBody := covers_nil
    targetFile := covers_nil
    headerComments := List.forall_mem_nil _
    sourceComments := List.forall_mem_nil _
    headerRegionStart := covers_nil
    headerRegionEnd := covers_nil
    sourceRegionStart := covers_nil
    sourceRegionEnd := covers_nil }
  obtain ⟨-, rfl⟩ | rfl | ⟨body, indent, rfl⟩ := hm
  · exact hdeclared
  · exact { hdeclared with targetFile := hstem }
  · exact { hdeclared with inlineBody := covers_normalizeBlock body, targetFile := hstem }

/-! ### Pages -/

/-- A page without carriage returns, in a file whose name is on one line. -/
structure Page.Tidy (page : Page) : Prop where
  text : noReturn.Covers page.text
  lines : ∀ l ∈ page.lines, oneLine.Covers l
  stem : oneLine.Covers page.stem

/-- The stem of a path has characters of the path. -/
theorem covers_stem {S : LineClass} {path : Text} (h : S.Covers path) :
    S.Covers (Path.stem path) := by
  have hname : S.Covers (Path.name path) :=
    covers_getLastD fun part hpart => covers_splitOn h part (List.mem_filter.mp hpart).1
  rw [Path.stem]
  split
  · exact hname.subset (List.take_subset _ _)
  · exact hname

/-- **Every text makes a tidy page.** -/
theorem Page.tidy_ofText (text : Text) {path : Text} (hpath : oneLine.Covers path) :
    (Page.ofText text path).Tidy :=
  ⟨covers_normalizeNewlines text, covers_lines (covers_normalizeNewlines text), covers_stem hpath⟩

namespace Page.Tidy

variable {page : Page} (h : page.Tidy)

include h

/-- A comment that is on a page is on one line. -/
theorem comment {comments : List Text} (hcomments : page.HasComment comments) :
    ∀ l ∈ comments, oneLine.Covers l := by
  obtain ⟨line, claimed, rfl⟩ := hcomments
  exact covers_collectComments h.lines line claimed

/-- So is a line of a page, cut off where a body ends. -/
theorem covers_lineWithin (pos limit : Nat) : oneLine.Covers (page.lineWithin pos limit) := by
  refine covers_trim (Covers.oneLine_of_noReturn (covers_slice h.text _ _) ?_)
  rw [Page.lineEndWithin, Page.lineEnd, Text.slice_line]
  intro hmem
  simpa using List.all_eq_true.mp (List.all_takeWhile (p := (· != '\n'))
    (l := page.text.slice pos limit)) _ hmem

/-- A comment behind a member may go on over further lines. -/
theorem covers_trailingComment (pos : Nat) :
    noReturn.Covers (trailingComment page pos).text := by
  have hrest := covers_slice h.text pos (page.lineEnd pos)
  simp only [trailingComment]
  split
  · exact covers_trimEnd (covers_trimStart hrest)
  · split
    · refine covers_append.mpr ⟨?_, ?_⟩
      · exact covers_trimEnd (covers_cutLine (covers_slice h.text _ _)).of_oneLine
      · split
        · exact covers_nil
        · exact covers_cons.mpr ⟨show '\n' ≠ '\r' by decide, covers_normalizeBlock _⟩
    · exact covers_nil

end Page.Tidy

/-! ### Markers and names -/

/-- The name of a region is part of its line. -/
theorem gives_regionMarker (S : LineClass) :
    regionMarker.Gives (Track.within S) fun p => S.Covers p.2 := by
  refine (Reader.gives_char _).bind fun _ _ => Reader.gives_blanks.bind fun _ _ => ?_
  refine (Reader.Gives.option ((Reader.gives_text _).bind fun _ _ => Reader.gives_blanks1)).bind
    fun _ _ => ?_
  refine (Reader.gives_oneOf _).bind fun _ _ => Reader.gives_wordEnd.bind fun _ _ => ?_
  exact (Reader.gives_many_within _ S).bind fun name hname => Reader.gives_pure (covers_trim hname)

/-- The comment that marks a region is on one line if the region's name is. -/
theorem covers_regionComment {opens : Bool} {name : Text} (h : oneLine.Covers name) :
    oneLine.Covers (regionComment opens name) := by
  rw [regionComment]
  refine covers_append.mpr ⟨?_, ?_⟩
  · split <;> exact covers_literal (by decide)
  · split
    · exact covers_nil
    · exact covers_cons.mpr ⟨has_space, h⟩

/-- The name behind a closing brace is a word. -/
theorem gives_closeTail : closeTail.Gives Track.every fun p => oneLine.Covers p.1 := by
  refine Reader.gives_blanks.bind fun _ _ => (Reader.gives_many _).bind fun name hname => ?_
  refine Reader.gives_blanks.bind fun _ _ => (Reader.gives_char _).bind fun _ _ => ?_
  refine Reader.gives_here.bind fun _ _ => Reader.gives_pure ?_
  exact covers_of_forall (p := isWord) (by decide) (by decide) hname

/-- The names of bases are on one line, however the head of the type is spread. -/
theorem covers_baseNames (t : Text) : ∀ b ∈ baseNames t, oneLine.Covers b := by
  intro b hb
  obtain ⟨base, -, rfl⟩ := List.mem_map.mp (List.mem_filter.mp hb).1
  exact (covers_join (covers_literal (by decide))).mpr fun w hw =>
    covers_words _ w (List.mem_filter.mp hw).1

/-- The head of a type is made of words. -/
theorem covers_typeHead? {page : Page} {pos : Nat} {head : TypeHead}
    (h : typeHead? page pos = some head) :
    oneLine.Covers head.name ∧ ∀ b ∈ head.bases, oneLine.Covers b := by
  simp only [typeHead?, Option.bind_eq_bind, Option.bind_eq_some_iff] at h
  obtain ⟨⟨isTypedef, isStruct⟩, -, brace, -, hif⟩ := h
  split at hif
  · cases hif
  · obtain rfl := Option.some.inj hif
    refine ⟨covers_getLastD fun w hw => ?_, covers_baseNames _⟩
    exact covers_wordRuns _ w (List.mem_filter.mp hw).1

/-! ### The reading -/

/-- An open type is tidy, and so is the marker that its next item takes. -/
structure OpenType.Tidy (o : OpenType) : Prop where
  decl : o.decl.Tidy
  pendingRegion : oneLine.Covers o.pendingRegion

/-- **What has been read is tidy.** -/
structure HeaderScan.Tidy (s : HeaderScan) : Prop where
  types : ∀ d ∈ s.types, d.Tidy
  constants : ∀ c ∈ s.constants, c.Tidy
  current : ∀ o, s.current = some o → o.Tidy

section

variable {page : Page} (hpage : page.Tidy)

include hpage

/-- A type as its head opens it. -/
theorem Page.Tidy.opened {pos : Nat} {head : TypeHead} {comments : List Text}
    (hhead : typeHead? page pos = some head) (hcomments : page.HasComment comments) :
    (page.opened head comments).Tidy := by
  obtain ⟨hname, hbases⟩ := covers_typeHead? hhead
  refine ⟨?_, covers_nil⟩
  exact {
    name := hname
    file := hpage.stem
    bases := hbases
    comments := hpage.comment hcomments
    members := by simp [Page.opened]
    methods := by simp [Page.opened]
    headerConstants := by simp [Page.opened]
    sourceConstants := by simp [Page.opened] }

/-- **What a step adds to an open type is tidy.** -/
theorem OpenType.Tidy.grows {o o' : OpenType} {pos : Nat} (h : o.Tidy)
    (hgrows : o.Grows page pos o') : o'.Tidy := by
  have hmarker : ∀ {opens name}, regionMarker.read (page.lineWithin pos o.bodyEnd)
      = some (opens, name) → oneLine.Covers (regionComment opens name) := fun hread =>
    covers_regionComment ((gives_regionMarker oneLine).read
      (hpage.covers_lineWithin pos o.bodyEnd) hread)
  cases hgrows with
  | label visibility => exact ⟨h.decl, h.pendingRegion⟩
  | regionStart hread => exact ⟨h.decl, hmarker hread⟩
  | regionEnd hread =>
      obtain ⟨methods, members, heq, hmethods, hmembers⟩ := o.endRegion_eq (regionComment false _)
      rw [heq]
      have hmethods' := hmethods h.decl.methods fun m hm =>
        { hm with headerRegionEnd := hmarker hread }
      have hmembers' := hmembers h.decl.members fun m hm => { hm with regionEnd := hmarker hread }
      exact ⟨{ h.decl with methods := hmethods', members := hmembers' }, h.pendingRegion⟩
  | constant hcomments =>
      have hline := (hpage.covers_lineWithin pos o.bodyEnd).of_oneLine (S := noReturn)
      refine ⟨{ h.decl with headerConstants := ?_ }, h.pendingRegion⟩
      refine List.forall_mem_append.mpr ⟨h.decl.headerConstants, ?_⟩
      exact tidy_ofLine? hline (hpage.comment hcomments)
  | method hpos hstart hcomments hread =>
      have hm := tidy_methodDecl (covers_slice hpage.text _ _) hpage.stem hread
      refine ⟨{ h.decl with methods := forall_mem_concat h.decl.methods ?_ }, covers_nil⟩
      exact { hm with
        headerComments := hpage.comment hcomments, headerRegionStart := h.pendingRegion }
  | member hcomments hread =>
      have hm := tidy_memberDecl? hread
      refine ⟨{ h.decl with members := forall_mem_concat h.decl.members ?_ }, covers_nil⟩
      exact { hm with
        comments := hpage.comment hcomments
        trailingComment := hpage.covers_trailingComment _
        regionStart := h.pendingRegion }

omit hpage in
/-- Finishing a type under a name leaves it tidy. -/
theorem OpenType.Tidy.finished {o : OpenType} {name : Text} (h : o.Tidy)
    (hname : o.IsName page name) : (o.finished name).Tidy := by
  have hname' : oneLine.Covers name := by
    rcases hname with rfl | ⟨stop, -, hread⟩
    · exact h.decl.name
    · exact gives_closeTail.readAt trivial hread
  have hmethods : ∀ m ∈ o.decl.methods.map (ownedMethod name), m.Tidy := by
    intro m hm
    obtain ⟨k, hk, rfl⟩ := List.mem_map.mp hm
    exact { h.decl.methods k hk with }
  exact { h.decl with name := hname', methods := hmethods }

/-- **No step takes away that what has been read is tidy.** -/
theorem HeaderScan.Tidy.moves {s s' : HeaderScan} {pos next : Nat} (h : s.Tidy)
    (hmoves : s.Moves page pos s' next) : s'.Tidy := by
  cases hmoves with
  | stays htypes hconstants hcurrent =>
      exact ⟨htypes ▸ h.types, hconstants ▸ h.constants, hcurrent ▸ h.current⟩
  | constant hcomments htypes hconstants hcurrent =>
      refine ⟨htypes ▸ h.types, ?_, hcurrent ▸ h.current⟩
      rw [hconstants]
      refine List.forall_mem_append.mpr ⟨h.constants, ?_⟩
      exact tidy_ofLine? (covers_slice hpage.text _ _) (hpage.comment hcomments)
  | opens hcomments hhead hnext htypes hconstants hcurrent =>
      refine ⟨htypes ▸ h.types, hconstants ▸ h.constants, fun o ho => ?_⟩
      obtain rfl := Option.some.inj (hcurrent.symm.trans ho)
      exact hpage.opened hhead hcomments
  | grows hs hpos hgrows htypes hconstants hcurrent =>
      refine ⟨htypes ▸ h.types, hconstants ▸ h.constants, fun o ho => ?_⟩
      obtain rfl := Option.some.inj (hcurrent.symm.trans ho)
      exact (h.current _ hs).grows hpage hgrows
  | drops htypes hconstants hcurrent =>
      exact ⟨htypes ▸ h.types, hconstants ▸ h.constants, fun o ho => by simp [hcurrent] at ho⟩
  | closes hs hname htypes hconstants hcurrent =>
      refine ⟨?_, hconstants ▸ h.constants, fun o ho => by simp [hcurrent] at ho⟩
      rw [htypes]
      refine List.forall_mem_append.mpr ⟨h.types, List.forall_mem_singleton.mpr ?_⟩
      exact (h.current _ hs).finished hname

/-- The whole reading keeps it. -/
theorem HeaderScan.Tidy.headerLoop {s : HeaderScan} (h : s.Tidy) (pos : Nat) :
    (headerLoop page s pos).Tidy := by
  fun_induction Sharpen.headerLoop page s pos with
  | case1 s pos hpos s' next hstep hlt ih =>
      have hmoved := h.moves hpage (moves_headerStep page s pos)
      rw [hstep] at hmoved
      exact ih hmoved
  | case2 s pos hpos s' next hstep hlt =>
      have hmoved := h.moves hpage (moves_headerStep page s pos)
      rwa [hstep] at hmoved
  | case3 s pos hpos => exact h

/-- Finishing the type that is still open leaves everything tidy. -/
theorem HeaderScan.Tidy.finishOpenType {s : HeaderScan} (h : s.Tidy) :
    (finishOpenType s).Tidy := by
  rw [Sharpen.finishOpenType]
  split
  · exact h
  · rename_i o hs
    have hreport : (s.report (.missingBrace o.decl.name)).Tidy :=
      ⟨h.types, h.constants, h.current⟩
    have hcurrent : (s.report (.missingBrace o.decl.name)).current = some o := hs
    have hmoves : HeaderScan.Moves page _ 0 (finishType _ o []) 0 :=
      moves_finishType hcurrent (Or.inl rfl) 0
    exact hreport.moves hpage hmoves

end

/-- Constants that a type is given. -/
theorem tidy_assignConstants {types : List TypeDecl} {constants : List Constant}
    (htypes : ∀ d ∈ types, d.Tidy) (hconstants : ∀ c ∈ constants, c.Tidy) (owner : Nat) :
    ∀ d ∈ assignConstants types owner constants, d.Tidy := by
  refine forall_mem_modify htypes (fun d hd => ?_) owner
  have hall := List.forall_mem_append.mpr ⟨hd.headerConstants, hconstants⟩
  exact { hd with headerConstants := fun k hk => hall k (List.mem_mergeSort.mp hk) }

/-- What is read of a header is tidy. -/
structure Header.Tidy (h : Header) : Prop where
  stem : oneLine.Covers h.stem
  types : ∀ d ∈ h.types, d.Tidy
  banner : ∀ l ∈ h.banner, oneLine.Covers l

/-- **Every header is tidy**, whatever line breaks its text has. -/
theorem tidy_parseHeader (text : Text) {path : Text} (hpath : oneLine.Covers path) :
    (parseHeader text path).1.Tidy := by
  have hpage := Page.tidy_ofText text hpath
  rw [parseHeader]
  generalize Page.ofText text path = page at hpage
  have hstart : (page.firstScan).Tidy :=
    ⟨by simp [Page.firstScan], by simp [Page.firstScan], by simp [Page.firstScan]⟩
  have hscan := (hstart.headerLoop hpage 0).finishOpenType hpage
  have hbanner := covers_bannerComments hpage.lines
  simp only [readHeader]
  split
  · exact ⟨hpage.stem, tidy_assignConstants hscan.types hscan.constants _, hbanner⟩
  · split
    · exact ⟨hpage.stem, hscan.types, hbanner⟩
    · exact ⟨hpage.stem, hscan.types, hbanner⟩

end Sharpen
