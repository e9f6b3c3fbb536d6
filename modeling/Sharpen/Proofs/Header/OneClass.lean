import Sharpen.Proofs.Decl.InitializerList
import Sharpen.Proofs.Header.PureVirtual

/-!
# A Header with One Class

The reading of a header that holds one class, written on one line up to its first statement: what
the head of the class is read as, where the reading goes on in its body, and what is left of the
class at its end.

This is the frame for statements about a single construct: what the construct is read as in the body
of a class is proved for one step, and the frame adds the steps before and behind. The name of the
class is an identifier that is no keyword of the reader's own, and the body is any text on the line
that is shown in the masked copy as it is.

## Main definitions

* `classText` — the text of such a header; `Page.ShowsClass` is its page.
* `Track.without` — the places from which on a character does not come.
* `isOwnerName` — whether a text is the name of a class with a constructor that is read as one.
* `classTypeHead` — what the head of the class says.
* `Page.inClass` — what has been read where the body of the class starts.

## Main results

* `typeHead?_classText` — its head.
* `Page.ShowsClass.map_types_of_insideStep` — a class of one statement has what that statement adds.
* `Page.ShowsClass.reaches_inClass` — the reading comes to the body of the class.
-/

namespace Sharpen

/-! ### Searching for a character -/

/-- The first of the characters that are looked for. -/
theorem findIdx?_append_cons {t : Text} {x : Char} (h : x ∉ t) (u : Text) :
    (t ++ x :: u).findIdx? (· == x) = some t.length := by
  induction t with
  | nil => simp [List.findIdx?_cons]
  | cons c t ih =>
      rw [List.mem_cons, not_or] at h
      have hc : (c == x) = false := beq_eq_false_iff_ne.mpr fun heq => h.1 heq.symm
      rw [List.cons_append, List.findIdx?_cons, hc, ih h.2]
      rfl

/-- The places from which on a character does not come. -/
def Track.without (x : Char) : Track where
  holds c := x ∉ c.rest
  skip n h := by
    rw [Cursor.rest_skip]
    exact fun hmem => h (List.mem_of_mem_drop hmem)

/-- What needs a character is not read where it does not come. -/
theorem Reader.gives_char_without (x : Char) :
    (Reader.char x).Gives (Track.without x) fun _ => False := by
  intro c a c' hc hrun
  obtain ⟨u, hu⟩ : ∃ u, c.rest = x :: u := ⟨c'.rest, (readsBy_char x c _).mp ⟨a, c', hrun, rfl⟩⟩
  exact absurd (hu ▸ List.mem_cons_self) hc

/-- No export mark is read in a text without parentheses. -/
theorem gives_declspec_without : declspec.Gives (Track.without '(') fun _ => False := by
  refine (Reader.gives_text _).bind fun _ _ => Reader.gives_blanks.bind fun _ _ => ?_
  exact (Reader.gives_char_without '(').bind fun _ h => h.elim

/-- So none is found there. -/
theorem findAll_declspec {t : Text} (h : '(' ∉ t) : declspec.findAll t = [] :=
  List.eq_nil_iff_forall_not_mem.mpr (gives_declspec_without.findAll h)

/-- Without parentheses there are no attributes. -/
theorem eraseDeclspecs_eq {t : Text} (h : '(' ∉ t) (new : Text) : eraseDeclspecs new t = t := by
  have hfrom : ∀ before, Reader.replaceFrom declspec (fun _ => new) 0 before t = t := by
    induction t with
    | nil => exact fun _ => rfl
    | cons x t ih =>
        intro before
        rw [Reader.replaceFrom]
        split
        · rename_i a c hrun
          exact (gives_declspec_without (show (Track.without '(').holds ⟨0, before, x :: t⟩ from h)
            hrun).1.elim
        · rw [ih fun hmem => h (List.mem_cons_of_mem _ hmem)]
  exact hfrom none

/-- The code of a line that starts with a blank. -/
theorem Text.exists_trim_line {x y : Char} (hx : Sharpen.isBlank x = false)
    (hy : Sharpen.isBlank y = false) (t u : Text) :
    ∃ v, Text.trim (' ' :: (x :: t ++ y :: u)) = x :: t ++ y :: v := by
  rw [Text.trim, Text.trimStart_cons_blank (by decide), List.cons_append,
    Text.trimStart_cons_code (by simp [hx]), ← List.cons_append]
  exact Text.exists_trimEnd_append hy (x :: t) u

/-- The first line of a text goes on through a text without newlines. -/
theorem Text.firstLine_append {t : Text} (h : '\n' ∉ t) (u : Text) :
    Text.firstLine (t ++ u) = t ++ Text.firstLine u := by
  refine List.takeWhile_append_of_pos fun c hc => ?_
  rw [bne_iff_ne]
  rintro rfl
  exact h hc

/-- Without colons there is nothing to cut at. -/
theorem cutAtColonFrom_eq_none {t : Text} (h : ':' ∉ t) (afterColon : Bool) :
    cutAtColonFrom afterColon t = none := by
  induction t generalizing afterColon with
  | nil => rfl
  | cons c t ih =>
      rw [List.mem_cons, not_or] at h
      have hc : (c == ':') = false := beq_eq_false_iff_ne.mpr fun heq => h.1 heq.symm
      simp [cutAtColonFrom, hc, ih h.2]

/-! ### The text of the header -/

/-- The text of a header with a class of one statement. -/
def classText (name body : Text) : Text :=
  "class ".toList ++ (name ++ (" \x7b ".toList ++ (body ++ " \x7d;".toList)))

/-- The words that introduce a type inside a type. -/
def nestedKeywords : List Text :=
  ["class", "struct", "union", "enum"]

/-- The words that cannot be the name of a class with a constructor, as these are read. -/
def reservedNames : List Text :=
  skippedKeywords ++ methodKeywords ++ nestedKeywords ++ [("final" : Text)]

/-- Whether a text is the name of a class with a constructor that is read as one. -/
def isOwnerName (name : Text) : Bool :=
  isIdentifier name && !reservedNames.contains name && !Text.hasInfix name "operator"

/-- The only word of a padded identifier is the identifier. -/
theorem wordRuns_padded {name : Text} (h : isIdentifier name = true) :
    Text.wordRuns (' ' :: ' ' :: (name ++ [' '])) = [name] := by
  obtain ⟨x, t, hname, -, hword⟩ := isIdentifier_cons h
  have hlead : ∀ u : Text, (∀ c ∈ u, isWord c = true) →
      Text.leadAndRuns (u ++ [' ']) = (u, []) := by
    intro u hu
    induction u with
    | nil => rfl
    | cons c u ih =>
        rw [List.cons_append, Text.leadAndRuns, ih fun c hc => hu c (List.mem_cons_of_mem _ hc)]
        simp [hu c List.mem_cons_self]
  have hspace : isWord ' ' = false := by decide
  rw [Text.wordRuns, Text.leadAndRuns, Text.leadAndRuns, hlead name hword]
  simp [hspace, hname]

/-- The head of the class as it is written. -/
def classHead (name : Text) : Text :=
  "class ".toList ++ (name ++ [' '])

/-- The text of a class is its head, the opening brace and what follows. -/
theorem classText_eq (name body : Text) :
    classText name body = classHead name ++ '\x7b' :: (' ' :: (body ++ " \x7d;".toList)) := by
  unfold classText classHead
  simp

/-- The head of a class is as long as its name and the keyword with its blank. -/
theorem length_classHead (name : Text) : (classHead name).length = name.length + 7 := by
  unfold classHead
  simp

/-- The text of a class is as long as its name, its body and all that is around them. -/
theorem length_classText (name body : Text) :
    (classText name body).length = name.length + body.length + 12 := by
  rw [classText_eq, List.length_append, length_classHead]
  simp
  omega

/-- The head has no characters but those of words and spaces. -/
theorem notMem_classHead {name : Text} (hname : isIdentifier name = true) {x : Char}
    (hx : isWord x = false) (hspace : x ≠ ' ') : x ∉ classHead name := by
  obtain ⟨-, -, -, -, hword⟩ := isIdentifier_cons hname
  have hkeyword : x ∉ "class ".toList := by
    intro hmem
    have hall : ∀ c ∈ "class ".toList, c = ' ' ∨ isWord c = true :=
      List.all_iff_forall_prop.mp (by decide)
    rcases hall x hmem with heq | hword
    · exact hspace heq
    · rw [hx] at hword
      cases hword
  unfold classHead
  rw [List.mem_append, List.mem_append, List.mem_singleton, not_or, not_or]
  refine ⟨hkeyword, fun hmem => ?_, hspace⟩
  rw [hword x hmem] at hx
  cases hx

/-- What stands behind the brace of the class. -/
theorem drop_classText (name body : Text) :
    (classText name body).drop (name.length + 8) = ' ' :: (body ++ " \x7d;".toList) := by
  rw [classText_eq, show name.length + 8 = (classHead name).length + 1 by rw [length_classHead],
    ← List.drop_drop, List.drop_left]
  rfl

/-- What is between the braces is the body with a space at either end. -/
theorem slice_classText (name body : Text) :
    (classText name body).slice (name.length + 8) (name.length + body.length + 10) =
      ' ' :: (body ++ [' ']) := by
  have hlength : name.length + body.length + 10 - (name.length + 8) =
      (' ' :: (body ++ [' '])).length := by
    simp
    omega
  have hsplit : ' ' :: (body ++ " \x7d;".toList) = (' ' :: (body ++ [' '])) ++ "\x7d;".toList := by
    simp
  rw [Text.slice, List.drop_take, drop_classText, hlength, hsplit, List.take_left]

/-- What the head of the class says. -/
def classTypeHead (name : Text) : TypeHead where
  isStruct := false
  name := name
  isTypedef := false
  isExported := false
  bases := []
  brace := name.length + 7

/-- **The head of the class.** -/
theorem typeHead?_classText {page : Page} {name body : Text}
    (hmasked : page.masked = classText name body) (hname : isIdentifier name = true)
    (hfinal : name ≠ "final") :
    typeHead? page 0 = some (classTypeHead name) := by
  have hkeyword : (typeKeyword isSpaceOrTab).readAt page.masked 0 = some (false, false) := by
    rw [hmasked]
    rfl
  have hbrace : Text.findChar? page.masked '\x7b' 0 = some (name.length + 7) := by
    rw [Text.findChar?, List.drop_zero, hmasked, classText_eq,
      findIdx?_append_cons (notMem_classHead hname (by decide) (by decide)), length_classHead]
    rfl
  have hhead : page.masked.slice 0 (name.length + 7) = classHead name := by
    rw [Text.slice, List.drop_zero, hmasked, classText_eq, ← length_classHead, List.take_left]
  have hparen := notMem_classHead hname (x := '(') (by decide) (by decide)
  have hrest : (do let _ ← typeKeyword isBlank; Reader.many fun _ => true : Reader Text).read
      (classHead name) = some (' ' :: (name ++ [' '])) := by
    change some (' ' :: (name ++ [' ']).takeWhile fun _ => true) = _
    simp
  have hcolon : ':' ∉ ' ' :: ' ' :: (name ++ [' ']) := by
    have := notMem_classHead hname (x := ':') (by decide) (by decide)
    unfold classHead at this
    simp_all
  have hfinal' : name ≠ ['f', 'i', 'n', 'a', 'l'] := hfinal
  have hbases : baseNames [] = [] := by decide
  simp [typeHead?, hkeyword, hbrace, hhead, eraseDeclspecs_eq hparen, hparen, hrest,
    notMem_classHead hname (x := ';') (by decide) (by decide), findAll_declspec hparen, cutAtColon?,
    cutAtColonFrom_eq_none hcolon, wordRuns_padded hname, hfinal', hbases,
    classTypeHead]

/-! ### The page of the header -/

/-- The page of a header with a class of one statement, and the masked copy of the statement. -/
structure Page.ShowsClass (page : Page) (name body masked : Text) : Prop where
  text_eq : page.text = classText name body
  masked_eq : page.masked = classText name masked
  mask_eq : page.masked = maskCode page.text
  length_eq : masked.length = body.length
  /-- The braces of the statement are closed in it. -/
  closed : ClosesBraces masked

/-- The page of a header with a class, from the masked copy of its statement. -/
theorem Page.showsClass_ofText {name body masked : Text} (hname : isIdentifier name = true)
    (hmask : maskCode (body.normalizeNewlines ++ " \x7d;".toList) = masked ++ " \x7d;".toList)
    (hclosed : ClosesBraces masked) (path : Text) :
    (Page.ofText (classText name body) path).ShowsClass name body.normalizeNewlines masked := by
  have hnot : ∀ {x : Char}, isWord x = false → x ≠ ' ' → x ≠ '\x7b' →
      x ∉ classHead name ++ ['\x7b'] := by
    intro x hx hspace hbrace
    rw [List.mem_append, List.mem_singleton, not_or]
    exact ⟨notMem_classHead hname hx hspace, hbrace⟩
  have hsplit : ∀ t : Text, classText name t =
      (classHead name ++ ['\x7b']) ++ ' ' :: (t ++ " \x7d;".toList) := by
    simp [classText_eq]
  have htext : (classText name body).normalizeNewlines = classText name body.normalizeNewlines := by
    have hbody : Text.normalizeNewlines (body ++ " \x7d;".toList) =
        body.normalizeNewlines ++ " \x7d;".toList :=
      normalizeNewlines_append_cons body (by decide) _
    have hspace : Text.normalizeNewlines (' ' :: (body ++ " \x7d;".toList)) =
        ' ' :: Text.normalizeNewlines (body ++ " \x7d;".toList) :=
      normalizeNewlines_append (t := [' ']) (by decide) _
    rw [hsplit, normalizeNewlines_append (hnot (by decide) (by decide) (by decide)), hspace,
      hbody, hsplit]
  have hbare : isBare (classHead name ++ ['\x7b']) = true :=
    isBare_of_notMem (hnot (by decide) (by decide) (by decide))
      (hnot (by decide) (by decide) (by decide)) (hnot (by decide) (by decide) (by decide))
  have hmasked : maskCode (classText name body.normalizeNewlines) = classText name masked := by
    rw [maskCode, hsplit, maskFrom_append_of_isBare hbare rfl,
      maskFrom_code_cons (by decide) (by decide), ← maskCode, hmask, hsplit]
  have hlength := congrArg List.length hmask
  rw [length_maskCode, List.length_append, List.length_append] at hlength
  exact
    { text_eq := htext
      masked_eq := (congrArg maskCode htext).trans hmasked
      mask_eq := rfl
      length_eq := by omega
      closed := hclosed }

namespace Page.ShowsClass

variable {page : Page} {name body masked : Text} (h : page.ShowsClass name body masked)

include h

/-- The class ends at the brace behind its statement. -/
theorem matchingAt?_eq :
    matchingAt? '\x7b' '\x7d' page.masked (name.length + 7) =
      some (name.length + masked.length + 10) := by
  have hdrop : page.masked.drop (name.length + 7 + 1) = ' ' :: (masked ++ " \x7d;".toList) := by
    rw [h.masked_eq, drop_classText]
  have hspace : ∀ r : Text, closeOffset '\x7b' '\x7d' 0 (' ' :: r) =
      (closeOffset '\x7b' '\x7d' 0 r).map (· + 1) :=
    closeOffset_cons_of_ne (by decide) (by decide) 0
  rw [matchingAt?, hdrop, hspace, h.closed]
  simp [closeOffset]
  omega

/-- The masked body from its first character on. -/
theorem slice_masked : page.masked.slice (name.length + 8) (name.length + masked.length + 10) =
    ' ' :: (masked ++ [' ']) := by
  rw [h.masked_eq, slice_classText]

/-- The body from its first character on. -/
theorem slice_text : page.text.slice (name.length + 8) (name.length + masked.length + 10) =
    ' ' :: (body ++ [' ']) := by
  rw [h.text_eq, h.length_eq, slice_classText]

/-- The first step opens the class. -/
theorem outsideStep_eq (hname : isIdentifier name = true) (hfinal : name ≠ "final")
    (s : HeaderScan) :
    outsideStep page s 0 =
      (openType page s (classTypeHead name) (page.lineOf 0), name.length + 8) := by
  have hline : page.lineEndWithin 0 page.text.length = page.lineEnd 0 :=
    Nat.min_eq_left (page.lineEnd_le 0)
  have hmasked : ∃ u, page.masked.slice 0 (page.lineEnd 0) = 'c' :: u := by
    rw [← hline, page.slice_lineEndWithin h.mask_eq, Text.slice, ← length_masked h.mask_eq,
      List.take_length, List.drop_zero, h.masked_eq]
    exact ⟨_, Text.firstLine_cons (by decide) _⟩
  have hsegment : ∃ u, Text.trim (page.text.slice 0 (page.lineEnd 0)) = 'c' :: u := by
    have hfirst : ∃ u, Text.firstLine page.text = 'c' :: u := by
      rw [h.text_eq]
      exact ⟨_, Text.firstLine_cons (by decide) _⟩
    obtain ⟨u, hu⟩ := hfirst
    rw [page.slice_lineEnd, List.drop_zero, hu, Text.trim, Text.trimStart_cons_code (by decide)]
    exact Text.exists_trimEnd_append (by decide) [] u
  obtain ⟨u, hu⟩ := hmasked
  obtain ⟨v, hv⟩ := hsegment
  have hblank : Text.isBlank ('c' :: u) = false := rfl
  have hmark : Text.startsWith ('c' :: v) "#" = false := rfl
  have hhead := typeHead?_classText h.masked_eq hname hfinal
  simp only [outsideStep, Page.fileItem, Page.fileLine, hu, hblank, hv, hmark, hhead,
    classTypeHead]
  rfl

/-- The text of the page has the length of its masked copy. -/
theorem length_text : page.text.length = name.length + masked.length + 12 := by
  rw [← length_masked h.mask_eq, h.masked_eq, length_classText]

/-- Behind the brace the class is finished, and the text ends. -/
theorem closeType_eq {s : HeaderScan} {o : OpenType}
    (hend : o.bodyEnd = name.length + masked.length + 10) (htypedef : o.isTypedef = false) :
    (closeType page s o).1 = finishType s o [] ∧ page.text.length ≤ (closeType page s o).2 := by
  have hrest : page.masked.drop (o.bodyEnd + 1) = [';'] := by
    have hsplit : classText name masked =
        (classHead name ++ '\x7b' :: ' ' :: (masked ++ [' ', '\x7d'])) ++ [';'] := by
      simp [classText_eq]
    have hlength : o.bodyEnd + 1 =
        (classHead name ++ '\x7b' :: ' ' :: (masked ++ [' ', '\x7d'])).length := by
      simp [length_classHead, hend]
      omega
    rw [h.masked_eq, hsplit, hlength, List.drop_left]
  have htail : closeTail.readAt page.masked (o.bodyEnd + 1) = some ([], o.bodyEnd + 2) := by
    rw [Reader.readAt, Cursor.at, hrest]
    rfl
  rw [closeType, htail]
  refine ⟨by rw [htypedef]; rfl, ?_⟩
  have hafter := page.le_afterStatement (i := o.bodyEnd + 2)
  have hlength := h.length_text
  dsimp only
  omega

end Page.ShowsClass

/-! ### Reading the header -/

/-- What has been read where the body of the class starts. -/
def Page.inClass (page : Page) (name : Text) : HeaderScan :=
  openType page page.firstScan (classTypeHead name) (page.lineOf 0)

/-- The class where its body starts. -/
def Page.openClass (page : Page) (name : Text) : OpenType :=
  page.opened (classTypeHead name)
    (collectComments page.lines (page.lineOf 0) page.firstScan.claimed).lines

/-- In the class, the class is open. -/
theorem Page.current_inClass (page : Page) (name : Text) :
    (page.inClass name).current = some (page.openClass name) := rfl

namespace Page.ShowsClass

variable {page : Page} {name body masked : Text} (h : page.ShowsClass name body masked)

include h

/-- **The reading comes to the body of the class.** -/
theorem reaches_inClass (hname : isIdentifier name = true) (hfinal : name ≠ "final") :
    page.Reaches (page.inClass name) (name.length + 8) := by
  have hlength := h.length_text
  have hstep : page.Reaches (headerStep page page.firstScan 0).1
      (headerStep page page.firstScan 0).2 := .step .start (by omega)
  have hfirst : headerStep page page.firstScan 0 =
      (page.inClass name, name.length + 8) := h.outsideStep_eq hname hfinal page.firstScan
  rwa [hfirst] at hstep

/-- Its body ends at the closing brace. -/
theorem bodyEnd_openClass :
    (page.openClass name).bodyEnd = name.length + masked.length + 10 := by
  have hclose := h.matchingAt?_eq
  change (matchingAt? '\x7b' '\x7d' page.masked (name.length + 7)).getD page.text.length = _
  rw [hclose]
  rfl

/-- **A class of one statement has what its statement adds.** -/
theorem map_types_of_insideStep (hname : isIdentifier name = true) (hfinal : name ≠ "final")
    {s : HeaderScan} {o : OpenType}
    (hstep : insideStep page (page.inClass name) (page.openClass name) (name.length + 8) =
      (s, name.length + masked.length + 10))
    (hs : s.current = some o) (htypes : s.types = [])
    (hend : o.bodyEnd = name.length + masked.length + 10) (htypedef : o.isTypedef = false)
    (howner : o.decl.name = name) :
    (readHeader page).1.types.map (fun d => (d.name, d.methods, d.members)) =
      [(name, o.decl.methods.map (ownedMethod name), o.decl.members)] := by
  have hlength := h.length_text
  have hpage := length_masked h.mask_eq
  have hbody := h.bodyEnd_openClass
  have hinside : headerStep page (page.inClass name) (name.length + 8) =
      (s, name.length + masked.length + 10) := by
    rw [headerStep, page.current_inClass name]
    dsimp only
    rw [if_neg (by omega), hstep]
  have hreach := (h.reaches_inClass hname hfinal).step (by omega)
  rw [hinside] at hreach
  have hclose : headerStep page s (name.length + masked.length + 10) = closeType page s o := by
    simp only [headerStep, hs, hend, Nat.le_refl, if_true]
  have hreach' := hreach.step (by omega)
  rw [hclose] at hreach'
  obtain ⟨hfinish, hstop⟩ := h.closeType_eq hend htypedef (s := s)
  have hloop : headerLoop page page.firstScan 0 = finishType s o [] := by
    rw [← hreach'.headerLoop_eq hpage, headerLoop, if_neg (by omega), hfinish]
  have hne : name ≠ [] := by
    obtain ⟨c, r, rfl, -⟩ := isIdentifier_cons hname
    exact List.cons_ne_nil c r
  have hfinished : (finishOpenType (headerLoop page page.firstScan 0)).types =
      [o.finished name] := by
    rw [hloop]
    simp [finishType, howner, hne, finishOpenType, htypes, OpenType.finished]
  rw [map_types_readHeader fun _ _ => rfl, hfinished]
  rfl

/-! ### The first line of the body -/

/-- The line that the masked body starts with. -/
theorem slice_masked_line {p m : Text} (hmasked : masked = p ++ m) (hp : '\n' ∉ p) :
    page.masked.slice (name.length + 8)
        (page.lineEndWithin (name.length + 8) (page.openClass name).bodyEnd) =
      ' ' :: (p ++ Text.firstLine (m ++ [' '])) := by
  rw [page.slice_lineEndWithin h.mask_eq, h.bodyEnd_openClass, h.slice_masked,
    Text.firstLine_cons (by decide), hmasked, List.append_assoc, Text.firstLine_append hp]

/-- The line that the body starts with. -/
theorem slice_text_line {p b : Text} (hbody : body = p ++ b) (hp : '\n' ∉ p) :
    page.text.slice (name.length + 8)
        (page.lineEndWithin (name.length + 8) (page.openClass name).bodyEnd) =
      ' ' :: (p ++ Text.firstLine (b ++ [' '])) := by
  rw [Page.lineEndWithin, Page.lineEnd, Text.slice_line, h.bodyEnd_openClass, h.slice_text,
    Text.firstLine_cons (by decide), hbody, List.append_assoc, Text.firstLine_append hp]

/-! ### The statement -/

/-- The masked copy of the statement, with the blank behind it. -/
theorem slice_masked_statement :
    page.masked.slice (name.length + 9) (page.openClass name).bodyEnd = masked ++ [' '] := by
  have hbody := h.slice_masked
  rw [Text.slice] at hbody
  rw [h.bodyEnd_openClass, Text.slice, ← List.drop_drop (i := 1), hbody]
  rfl

/-- The statement, with the blank behind it. -/
theorem slice_text_statement :
    page.text.slice (name.length + 9) (page.openClass name).bodyEnd = body ++ [' '] := by
  have hbody := h.slice_text
  rw [Text.slice] at hbody
  rw [h.bodyEnd_openClass, Text.slice, ← List.drop_drop (i := 1), hbody]
  rfl

/-- A part of the statement. -/
theorem slice_statement_eq {t : Text} {k stop : Nat}
    (ht : t.slice (name.length + 9) (page.openClass name).bodyEnd = body ++ [' '])
    (hstop : stop = name.length + 9 + k) (hk : k ≤ body.length + 1) :
    t.slice (name.length + 9) stop = (body ++ [' ']).take k := by
  have hbody := h.bodyEnd_openClass
  have hlength := h.length_eq
  rw [← ht, Text.slice, Text.slice, List.drop_take, List.drop_take, List.take_take, hstop]
  congr 1
  omega

/-- Behind the statement the class ends. -/
theorem afterStatementWithin_eq {i : Nat} (hi : name.length + masked.length + 9 ≤ i)
    (hle : i ≤ (page.openClass name).bodyEnd) :
    page.afterStatementWithin i (page.openClass name).bodyEnd = (page.openClass name).bodyEnd := by
  have hbody := h.bodyEnd_openClass
  have hend : ∀ t : Text, t.length = masked.length →
      (classText name t).drop (name.length + masked.length + 9) = " \x7d;".toList := by
    intro t ht
    have hsplit : classText name t =
        (classHead name ++ '\x7b' :: ' ' :: t) ++ " \x7d;".toList := by
      simp [classText_eq]
    have hlength : name.length + masked.length + 9 =
        (classHead name ++ '\x7b' :: ' ' :: t).length := by
      simp [length_classHead, ht]
      omega
    rw [hsplit, hlength, List.drop_left]
  obtain ⟨k, rfl⟩ := Nat.exists_eq_add_of_le hi
  have hline : page.lineEnd (name.length + masked.length + 9 + k) = page.text.length := by
    have hnewline : (" \x7d;".toList.drop k).findIdx? (· == '\n') = none := by
      rw [List.findIdx?_eq_none_iff]
      intro c hc
      have hall : ∀ c ∈ " \x7d;".toList, (c == '\n') = false :=
        List.all_iff_forall_prop.mp (by decide)
      exact hall c (List.mem_of_mem_drop hc)
    rw [Page.lineEnd, Text.findChar?, ← List.drop_drop, h.text_eq, hend body h.length_eq.symm,
      hnewline]
    rfl
  have hwithin : page.lineEndWithin (name.length + masked.length + 9 + k)
      (page.openClass name).bodyEnd = (page.openClass name).bodyEnd := by
    rw [Page.lineEndWithin, hline, h.length_text, hbody]
    omega
  have hrest : isStatementRest (page.masked.slice (name.length + masked.length + 9 + k)
      (page.openClass name).bodyEnd) = true := by
    rw [hbody, Text.slice, List.drop_take, ← List.drop_drop, h.masked_eq, hend masked rfl]
    have hk : k = 0 ∨ k = 1 := by omega
    rcases hk with rfl | rfl
    · rw [show name.length + masked.length + 10 - (name.length + masked.length + 9 + 0) =
        1 by omega]
      rfl
    · rw [show name.length + masked.length + 10 - (name.length + masked.length + 9 + 1) =
        0 by omega]
      rfl
  rw [Page.afterStatementWithin]
  simp only [hwithin, hrest, if_true, nextLine, Nat.lt_irrefl, if_false]

end Page.ShowsClass

end Sharpen
