import Sharpen.Proofs.Code.StringLiteral
import Sharpen.Proofs.Header.OneClass

/-!
# Members with a String Literal

A member that is declared `static const CString name = "…";` is read with the literal as its
initializer, wherever the declaration stands in the body of a class. The literal is taken as it is
written but for its blanks: each run of them becomes one space.

The declaration is followed through the whole step: the masked copy shows a member, the text between
its start and the semicolon is squeezed, and the parts are read from that. The literal is a string
literal as it is written on a line, with an encoding perhaps. Squeezing is the only thing that
touches it, so a literal is kept just if it has no two blanks in a row and no blank but spaces.

## Main definitions

* `memberText` — the text of such a declaration.
* `Page.ShowsMember` — such a declaration in the body of any class; `insideStep_eq` is the step that
  reads it and `exists_member` what it adds.

## Main results

* `memberDecl?_memberText` — what it is read as.
* `parseHeader_memberText` — a class with nothing but the declaration.
* `initializer_literal` — which literals are kept, in a class and in a list of initializers.
* `memberCode_memberText` — the code of the declaration has the literal with its blanks squeezed.
* `not_forall_initializer_literal` — a literal is not kept if there are two spaces in a row in it.
-/

namespace Sharpen

/-- What stands before the name of the member. -/
def memberHead : Text :=
  "static const CString "

/-- The declaration of a member with a value. -/
def memberText (name value : Text) : Text :=
  memberHead ++ (name ++ (" = ".toList ++ (value ++ [';'])))

section

variable {name : Text} (hname : isIdentifier name = true) (v : StringLiteral)

include hname

/-- **The code of the declaration** has the literal with its blanks squeezed. -/
theorem memberCode_memberText :
    memberCode (memberText name v.text) = memberText name v.text.squeeze := by
  obtain ⟨x, r, hcons, -, hword⟩ := isIdentifier_cons hname
  have hx : isBlank x = false := isBlank_eq_false_of_isWord (hword x (hcons ▸ List.mem_cons_self))
  have hcomment : lineCommentStart? none false (memberText name v.text) = none := by
    have hsemicolon : lineCommentStart? none false [';'] = none := by decide
    have hplain : ∀ c ∈ name, isQuote c = false ∧ c ≠ '/' := fun c hc =>
      ⟨isQuote_eq_false_of_isWord (hword c hc), ne_of_isWord (hword c hc) (by decide)⟩
    have hvalue := lineCommentStart?_plain (t := " = ".toList)
      (List.all_iff_forall_prop.mp (by decide))
      (v.lineCommentStart?_text hsemicolon)
    exact lineCommentStart?_plain (t := memberHead) (List.all_iff_forall_prop.mp (by decide))
      (lineCommentStart?_plain hplain hvalue)
  have hsemicolon : isBlank ';' = false := by decide
  have hsqueeze : Text.squeeze (memberText name v.text) = memberText name v.text.squeeze := by
    obtain ⟨y, u, hy, hy'⟩ := v.exists_text_eq_cons
    have hvalue : Text.squeeze (" = ".toList ++ (v.text ++ [';'])) =
        " = ".toList ++ (v.text.squeeze ++ [';']) := by
      have hconcat : Text.squeeze (v.text ++ [';']) = v.text.squeeze ++ [';'] :=
        squeeze_append_cons hsemicolon v.text []
      rw [hy, List.cons_append, squeeze_append_cons hy', ← squeeze_cons_of_code hy',
        ← List.cons_append, ← hy, hconcat]
      rfl
    have hrest : Text.squeeze (name ++ (" = ".toList ++ (v.text ++ [';']))) =
        name ++ (" = ".toList ++ (v.text.squeeze ++ [';'])) := by
      rw [squeeze_append_of_code fun c hc => isBlank_eq_false_of_isWord (hword c hc), hvalue]
    rw [memberText, hcons, List.cons_append, squeeze_append_cons hx, ← squeeze_cons_of_code hx,
      ← List.cons_append, ← hcons, hrest]
    rfl
  have hconcat : memberText name v.text.squeeze = (memberHead ++
      (name ++ (" = ".toList ++ v.text.squeeze))) ++ [';'] := by
    simp [memberText]
  have hconcat' : memberText name v.text = (memberHead ++
      (name ++ (" = ".toList ++ v.text))) ++ [';'] := by
    simp [memberText]
  have htrimEnd : Text.trimEnd (memberText name v.text) = memberText name v.text := by
    rw [hconcat', Text.trimEnd, Text.dropEndWhile_concat hsemicolon]
  rw [memberCode, splitTrailingComment, hcomment]
  dsimp only
  rw [htrimEnd, hsqueeze, Text.trim,
    show Text.trimStart (memberText name v.text.squeeze) = memberText name v.text.squeeze from rfl,
    hconcat, Text.trimEnd, Text.dropEndWhile_concat hsemicolon]

omit hname in
/-- The qualifiers in front of the type are all taken first. -/
theorem exists_afterWords_memberText (name value : Text) :
    ∃ others, afterWords memberQualifiers (memberText name value) =
      ("CString ".toList ++ (name ++ (" = ".toList ++ (value ++ [';'])))) :: others := by
  generalize hrest : name ++ (" = ".toList ++ (value ++ [';'])) = t
  have hfirst : afterOneOf? memberQualifiers (memberHead ++ t) =
      some ("const CString ".toList ++ t) := rfl
  have hsecond : afterOneOf? memberQualifiers ("const CString ".toList ++ t) =
      some ("CString ".toList ++ t) := rfl
  have hthird : afterOneOf? memberQualifiers ("CString ".toList ++ t) = none := rfl
  rw [memberText, hrest, afterWords, hfirst]
  dsimp only
  rw [if_pos, afterWords, hsecond]
  · dsimp only
    rw [if_pos, afterWords, hthird]
    · exact ⟨_, rfl⟩
    · rw [List.length_append, List.length_append]
      exact Nat.add_lt_add_right (by decide) _
  · rw [List.length_append, List.length_append]
    exact Nat.add_lt_add_right (by decide) _

/-- What stands behind the type is read from the name on. -/
theorem memberTail?_memberText {value : Text} (hvalue : value.trim = value) (hne : value ≠ []) :
    memberTail? (' ' :: (name ++ (" = ".toList ++ (value ++ [';'])))) =
      some (name, none, some value) := by
  obtain ⟨x, r, hcons, -, hword⟩ := isIdentifier_cons hname
  have hname' : (name ++ (" = ".toList ++ (value ++ [';']))).takeWhile isWord = name := by
    rw [List.takeWhile_append_of_pos hword]
    exact List.append_nil name
  have hempty : name.isEmpty = false := by simp [hcons]
  have htrim : Text.trim (' ' :: value) = value := by
    have hpad := Text.trim_pad hvalue hne (show Text.isBlank [' '] = true from rfl)
      (show Text.isBlank [] = true from rfl)
    rwa [List.append_nil] at hpad
  have hrest : dropBlank ((name ++ (" = ".toList ++ (value ++ [';']))).drop name.length) =
      '=' :: ((' ' :: value) ++ [';']) := by
    rw [List.drop_left]
    rfl
  have hread : memberValue? ('=' :: ((' ' :: value) ++ [';'])) = some (some value) := by
    rw [memberValue?, List.getLast?_concat, List.dropLast_concat, htrim]
    rfl
  have hstart : dropBlank (' ' :: (name ++ (" = ".toList ++ (value ++ [';'])))) =
      name ++ (" = ".toList ++ (value ++ [';'])) := rfl
  have hequals : dropBlank ('=' :: ((' ' :: value) ++ [';'])) = '=' :: ((' ' :: value) ++ [';']) :=
    rfl
  have hbound : arrayBound ('=' :: ((' ' :: value) ++ [';'])) =
      (none, '=' :: ((' ' :: value) ++ [';'])) := rfl
  simp only [memberTail?, hstart, hname', hrest, hbound, hempty, hequals, hread,
    Bool.false_eq_true, if_false, Option.map_some]

/-- A `const` behind the type is taken for the name where no other name follows. -/
theorem afterConst_memberText (value : Text) :
    let t := ' ' :: (name ++ (" = ".toList ++ (value ++ [';'])))
    ∃ others, afterConst t = others ++ [t] ∧
      ∀ r ∈ others, (afterMarkers r).findSome? memberTail? = none := by
  intro t
  rw [afterConst]
  split
  · rename_i hconst
    rw [Bool.and_eq_true, Text.startsWith, List.isPrefixOf_iff_prefix] at hconst
    obtain ⟨v, hv⟩ := exists_append_of_prefix (w := "const".toList) (x := ' ') (by decide)
      (List.all_iff_forall_prop.mp (by decide))
      (List.cons_prefix_cons.mp hconst.1).2
    obtain rfl : v = [] := by
      cases v with
      | nil => rfl
      | cons c v =>
          obtain ⟨-, -, -, -, hword⟩ := isIdentifier_cons hname
          have hc := hword c (hv ▸ List.mem_append_right _ List.mem_cons_self)
          have hnext : (t.drop 6).head? = some c := by
            simp only [t, hv]
            rfl
          simp [hnext, hc] at hconst
    refine ⟨[t.drop 6], rfl, fun r hr => ?_⟩
    rw [List.mem_singleton.mp hr]
    simp only [t, hv]
    rfl
  · exact ⟨[], rfl, by simp⟩

/-- **What the declaration is read as.** -/
theorem memberDecl?_memberText {value : Text} (hvalue : value.trim = value) (hne : value ≠ [])
    (visibility : Visibility) :
    ∃ m, memberDecl? visibility (memberText name value) = some m ∧ m.name = name ∧
      m.initializer = some value := by
  obtain ⟨others, hwords⟩ := exists_afterWords_memberText name value
  obtain ⟨x, r, hcons, -, hword⟩ := isIdentifier_cons hname
  have htail := memberTail?_memberText hname hvalue hne
  obtain ⟨before, hconst, hbefore⟩ := afterConst_memberText hname value
  generalize hrest : name ++ (" = ".toList ++ (value ++ [';'])) = t at *
  have hx : ∃ u, t = x :: u :=
    ⟨r ++ (" = ".toList ++ (value ++ [';'])), by rw [← hrest, hcons]; rfl⟩
  obtain ⟨u, rfl⟩ := hx
  have hx : isWord x = true := hword x (hcons ▸ List.mem_cons_self)
  have hsize : afterWords sizeWords ("CString ".toList ++ x :: u) =
      ["CString ".toList ++ x :: u] := by
    rw [afterWords, show afterOneOf? sizeWords ("CString ".toList ++ x :: u) = none from rfl]
  have htype : ∃ types, afterTypeName ("CString ".toList ++ x :: u) = (' ' :: x :: u) :: types :=
    ⟨_, rfl⟩
  have htemplate : afterTemplate (' ' :: x :: u) = [' ' :: x :: u] := by
    have hdrop : dropBlank (' ' :: x :: u) = x :: u := rfl
    rw [afterTemplate, hdrop]
    split
    · rename_i heq
      exact absurd (List.cons.inj heq).1 (ne_of_isWord hx (by decide))
    · rfl
  have hmarkers : afterMarkers (' ' :: x :: u) = [' ' :: x :: u] := by
    have hdrop : dropBlank (' ' :: x :: u) = x :: u := rfl
    have hstar := ne_of_isWord hx (show isWord '*' = false by decide)
    have hamp := ne_of_isWord hx (show isWord '&' = false by decide)
    simp [afterMarkers, hdrop, hstar, hamp]
  have hnone : ∀ g : Text → Text × Option Text × Option Text → MemberParts,
      (before.findSome? fun r₄ => (afterMarkers r₄).findSome? fun r₅ =>
        (memberTail? r₅).map (g r₅)) = none := by
    intro g
    refine List.findSome?_eq_none_iff.mpr fun r₄ hr₄ =>
      List.findSome?_eq_none_iff.mpr fun r₅ hr₅ => ?_
    rw [List.findSome?_eq_none_iff.mp (hbefore r₄ hr₄) r₅ hr₅, Option.map_none]
  obtain ⟨types, htypes⟩ := htype
  have hparts : ∃ parts, memberParts? (memberText name value) = some parts ∧ parts.name = name ∧
      parts.value = some value := by
    let start : Text := "CString ".toList ++ x :: u
    let code := memberText name value
    refine ⟨⟨Text.words (code.take (code.length - start.length)),
      start.take (start.length - (' ' :: x :: u).length), name, none, some value⟩, ?_, rfl, rfl⟩
    simp only [memberParts?, hwords, List.findSome?_cons, hsize, htypes, htemplate, hconst,
      List.findSome?_append, hmarkers, htail, Option.map_some, List.findSome?_nil]
    rw [hnone]
    rfl
  obtain ⟨parts, hread, hpartsName, hpartsValue⟩ := hparts
  rw [memberDecl?, hread]
  exact ⟨_, rfl, hpartsName, hpartsValue⟩

end

/-! ### The step that reads it -/

/-- The masked copy of the declaration. -/
theorem maskFrom_memberText {name : Text} (hname : isIdentifier name = true) (v : StringLiteral)
    (u : Text) :
    maskFrom .code (memberText name v.text ++ u) =
      memberText name v.masked ++ maskFrom .code u := by
  obtain ⟨-, -, -, -, hword⟩ := isIdentifier_cons hname
  have hnot : ∀ {x : Char}, x ∉ memberHead → isWord x = false → x ∉ " =".toList →
      x ∉ memberHead ++ (name ++ " =".toList) := by
    intro x hhead hx hequals
    rw [List.mem_append, List.mem_append, not_or, not_or]
    exact ⟨hhead, fun hmem => ne_of_isWord (hword x hmem) hx rfl, hequals⟩
  have hbare : isBare (memberHead ++ (name ++ " =".toList)) = true :=
    isBare_of_notMem (hnot (by decide) (by decide) (by decide))
      (hnot (by decide) (by decide) (by decide)) (hnot (by decide) (by decide) (by decide))
  have hsplit : ∀ t : Text, memberText name t ++ u =
      (memberHead ++ (name ++ " =".toList)) ++ ' ' :: (t ++ ';' :: u) := by
    simp [memberText]
  rw [hsplit, maskFrom_append_of_isBare hbare rfl, maskFrom_code_cons (by decide) (by decide),
    v.maskFrom_text, maskFrom_code_cons (by decide) (by decide)]
  simp [memberText]

/-- There are no brackets in it, and it ends with its semicolon. -/
theorem exists_memberText_masked {name : Text} (hname : isIdentifier name = true)
    (v : StringLiteral) :
    ∃ t, memberText name v.masked = t ++ [';'] ∧
      ∀ c ∈ t, isBracket c = false ∧ c ≠ ';' ∧ c ≠ '\n' := by
  obtain ⟨-, -, -, -, hword⟩ := isIdentifier_cons hname
  have hwords : ∀ {t : Text}, (∀ c ∈ t, isWord c = true) →
      ∀ c ∈ t, isBracket c = false ∧ c ≠ ';' ∧ c ≠ '\n' := fun ht c hc =>
    ⟨isBracket_eq_false_of_isWord (ht c hc), ne_of_isWord (ht c hc) (by decide),
      ne_of_isWord (ht c hc) (by decide)⟩
  have hhead : ∀ c ∈ memberHead, isBracket c = false ∧ c ≠ ';' ∧ c ≠ '\n' :=
    List.all_iff_forall_prop.mp (by decide)
  have hequals : ∀ c ∈ " = ".toList, isBracket c = false ∧ c ≠ ';' ∧ c ≠ '\n' :=
    List.all_iff_forall_prop.mp (by decide)
  have hquote : isBracket '"' = false ∧ '"' ≠ ';' ∧ '"' ≠ '\n' := by decide
  have hspace : isBracket ' ' = false ∧ ' ' ≠ ';' ∧ ' ' ≠ '\n' := by decide
  have hvalue : ∀ c ∈ v.masked, isBracket c = false ∧ c ≠ ';' ∧ c ≠ '\n' := by
    intro c hc
    rw [StringLiteral.masked, List.mem_append, List.mem_cons, List.mem_append,
      List.mem_singleton] at hc
    rcases hc with hc | rfl | hc | rfl
    · exact hwords v.forall_isWord_encoding c hc
    · exact hquote
    · rw [List.eq_of_mem_replicate hc]
      exact hspace
    · exact hquote
  refine ⟨memberHead ++ (name ++ (" = ".toList ++ v.masked)), by simp [memberText], ?_⟩
  simp only [List.forall_mem_append]
  exact ⟨hhead, hwords hword, hequals, hvalue⟩

/-- The text of a member is as long with its literal masked. -/
theorem length_memberText_masked (name : Text) (v : StringLiteral) :
    (memberText name v.masked).length = (memberText name v.text).length := by
  simp [memberText, StringLiteral.masked, StringLiteral.text]

/-- What is cut out of a text is found at the start of what is left behind a place. -/
theorem slice_of_drop {t a b : Text} {i j : Nat} (h : t.drop i = a ++ b) (hj : i + a.length ≤ j) :
    t.slice i j = a ++ b.take (j - i - a.length) := by
  rw [Text.slice, List.drop_take, h, List.take_append, List.take_of_length_le (by omega)]

/-- The declaration has a line break only where its value has one. -/
theorem lineBreak_notMem_memberText {name value : Text} (hname : isIdentifier name = true)
    {x : Char}
    (hx : x = '\n' ∨ x = '\r') (hvalue : x ∉ value) : x ∉ memberText name value := by
  obtain ⟨-, -, -, -, hword⟩ := isIdentifier_cons hname
  have hbreak : isWord x = false ∧ x ∉ memberHead ∧ x ∉ " = ".toList ∧ x ∉ [';'] := by
    rcases hx with rfl | rfl <;> decide
  have hname' : x ∉ name := fun hmem => ne_of_isWord (hword x hmem) hbreak.1 rfl
  simp only [memberText, List.mem_append, not_or]
  exact ⟨hbreak.2.1, hname', hbreak.2.2.1, hvalue, hbreak.2.2.2⟩

/-- What the line of the declaration starts with, whatever stands around it. -/
theorem exists_trim_memberText {gap : Text} (hgap : gap.isBlank = true) (name value u : Text) :
    let line := gap ++ (memberText name value ++ u)
    line.length - (Text.trimStart line).length = gap.length ∧
      ∃ w, Text.trim line = memberHead ++ w := by
  intro line
  have hsplit : memberText name value ++ u =
      (memberHead ++ (name ++ (" = ".toList ++ value))) ++ ';' :: u := by
    simp [memberText]
  have hstart : Text.trimStart line = memberText name value ++ u := by
    rw [Text.trimStart_blank_append hgap]
    rfl
  obtain ⟨w, hw⟩ := Text.exists_trimEnd_append (x := ';') (by decide)
    (memberHead ++ (name ++ (" = ".toList ++ value))) u
  refine ⟨by rw [hstart, List.length_append, Nat.add_sub_cancel], ?_⟩
  rw [Text.trim, hstart, hsplit, hw, List.append_assoc]
  exact ⟨_, rfl⟩

/-- A member that is read is added to the type. -/
theorem memberStep_of_member {page : Page} {s : HeaderScan} {o : OpenType} {start semicolon : Nat}
    {m : Member} (h : memberDecl? o.visibility
      (memberCode (page.text.slice start (semicolon + 1))) = some m) (line : Nat) :
    let step := memberStep page s o start semicolon line
    ∃ m', step.1.current = some (o.addMember m') ∧ m'.name = m.name ∧
      m'.initializer = m.initializer ∧ step.1.types = s.types ∧
      step.2 = (trailingComment page (semicolon + 1)).stop := by
  intro step
  simp only [step, memberStep, h, and_true]
  exact ⟨_, rfl, rfl, rfl, rfl⟩

/-- A page with the declaration of such a member at position `pos`, before position `limit`. -/
structure Page.ShowsMember (page : Page) (pos limit : Nat) (gap name : Text) (v : StringLiteral)
    (rest : Text) : Prop where
  name_isIdentifier : isIdentifier name = true
  gap_isBlank : gap.isBlank = true
  gap_isLine : '\n' ∉ gap
  mask_eq : page.masked = maskCode page.text
  text_eq : page.text.drop pos = gap ++ (memberText name v.text ++ rest)
  /-- The position is one of code. -/
  masked_eq : page.masked.drop pos = maskFrom .code (page.text.drop pos)
  le_limit : pos + gap.length + (memberText name v.text).length ≤ limit

namespace Page.ShowsMember

variable {page : Page} {pos limit : Nat} {gap name rest : Text} {v : StringLiteral}

variable (h : page.ShowsMember pos limit gap name v rest)

include h

/-- From the member on, the page has the masked text of the member and the masked rest. -/
theorem drop_masked :
    page.masked.drop pos = gap ++ (memberText name v.masked ++ maskFrom .code rest) := by
  rw [h.masked_eq, h.text_eq, maskFrom_code_blanks h.gap_isBlank,
    maskFrom_memberText h.name_isIdentifier]

/-- The masked line. -/
theorem exists_slice_masked_line :
    ∃ u, page.masked.slice pos (page.lineEndWithin pos limit) =
      gap ++ (memberText name v.masked ++ u) := by
  have hle := h.le_limit
  rw [← length_memberText_masked name v] at hle
  have hslice := slice_of_drop (a := gap ++ memberText name v.masked) (j := limit)
    (by rw [h.drop_masked, List.append_assoc]) (by rw [List.length_append]; omega)
  rw [page.slice_lineEndWithin h.mask_eq, hslice, List.append_assoc,
    Text.firstLine_append h.gap_isLine, Text.firstLine_append
      (lineBreak_notMem_memberText h.name_isIdentifier (.inl rfl) v.newline_notMem_masked)]
  exact ⟨_, rfl⟩

/-- The line. -/
theorem exists_slice_text_line :
    ∃ u, page.text.slice pos (page.lineEndWithin pos limit) =
      gap ++ (memberText name v.text ++ u) := by
  have hle := h.le_limit
  have hslice := slice_of_drop (a := gap ++ memberText name v.text) (j := limit)
    (by rw [h.text_eq, List.append_assoc]) (by rw [List.length_append]; omega)
  rw [Page.lineEndWithin, Page.lineEnd, Text.slice_line, hslice, List.append_assoc,
    Text.firstLine_append h.gap_isLine,
    Text.firstLine_append (lineBreak_notMem_memberText h.name_isIdentifier (.inl rfl)
      (v.lineBreak_notMem_text (.inl rfl)))]
  exact ⟨_, rfl⟩

/-- The masked copy of the declaration, and what stands behind it. -/
theorem drop_masked_declaration :
    page.masked.drop (pos + gap.length) = memberText name v.masked ++ maskFrom .code rest := by
  rw [← List.drop_drop, h.drop_masked, List.drop_left]

/-- The declaration ends at its semicolon. -/
theorem statementEnd_add_one :
    page.statementEnd (pos + gap.length) limit + 1 =
      pos + gap.length + (memberText name v.text).length := by
  obtain ⟨t, ht, hplain⟩ := exists_memberText_masked h.name_isIdentifier v
  have hlength := length_memberText_masked name v
  have hle := h.le_limit
  have hslice := slice_of_drop (j := limit) h.drop_masked_declaration (by omega)
  rw [ht, List.length_append, List.length_singleton] at hlength
  have hruns : runsOn 0 0 t = some (0, 0) :=
    runsOn_plain (fun c hc => ⟨(hplain c hc).1, (hplain c hc).2.1⟩) 0 0
  rw [Page.statementEnd, hslice, ht, List.append_assoc, statementOffset?_append hruns]
  simp [statementOffset?]
  omega

/-- Its semicolon is the first one. -/
theorem findChar?_semicolon :
    Text.findChar? page.masked ';' (pos + gap.length) =
      some (page.statementEnd (pos + gap.length) limit) := by
  obtain ⟨t, ht, hplain⟩ := exists_memberText_masked h.name_isIdentifier v
  have hlength := length_memberText_masked name v
  have hstop := h.statementEnd_add_one
  rw [ht, List.length_append, List.length_singleton] at hlength
  have hnot : ';' ∉ t := fun hmem => (hplain _ hmem).2.1 rfl
  rw [Text.findChar?, h.drop_masked_declaration, ht, List.append_assoc, List.singleton_append,
    findIdx?_append_cons hnot, Option.map_some, Option.some.injEq]
  omega

/-- The masked copy of the declaration. -/
theorem slice_masked_declaration :
    page.masked.slice (pos + gap.length) (page.statementEnd (pos + gap.length) limit + 1) =
      memberText name v.masked := by
  have hlength := length_memberText_masked name v
  rw [h.statementEnd_add_one, slice_of_drop h.drop_masked_declaration (by omega)]
  simp [hlength]

/-- The declaration. -/
theorem slice_text_declaration :
    page.text.slice (pos + gap.length) (page.statementEnd (pos + gap.length) limit + 1) =
      memberText name v.text := by
  have htext : page.text.drop (pos + gap.length) = memberText name v.text ++ rest := by
    rw [← List.drop_drop, h.text_eq, List.drop_left]
  rw [h.statementEnd_add_one, slice_of_drop htext (by omega)]
  simp

/-- **The declaration is read as a member**, and not as another construct. For it starts with none
of what the other constructs start with. -/
theorem insideStep_eq (s : HeaderScan) {o : OpenType} (ho : o.bodyEnd = limit) :
    insideStep page s o pos =
      let step := memberStep page s o (pos + gap.length)
        (page.statementEnd (pos + gap.length) limit) (page.lineOf pos)
      (step.1, page.afterStatementWithin step.2 limit) := by
  obtain ⟨u, hu⟩ := h.exists_slice_masked_line
  obtain ⟨u', hu'⟩ := h.exists_slice_text_line
  obtain ⟨hstart, w, hw⟩ := exists_trim_memberText h.gap_isBlank name v.masked u
  obtain ⟨-, w', hw'⟩ := exists_trim_memberText h.gap_isBlank name v.text u'
  have hempty : List.isEmpty (memberHead ++ w) = false := rfl
  have hdirective : Text.startsWith (memberHead ++ w') "#" = false := rfl
  have hlabel : accessLabel.read (memberHead ++ w) = none := rfl
  have hnested : nestedType.read (memberHead ++ w) = none := rfl
  have hword : (memberHead ++ w).takeWhile (fun c => c == '~' || isWord c) = "static".toList := rfl
  have htemplate : ("static".toList == "template".toList) = false := by decide
  have hskipped : skippedKeywords.contains "static".toList = false := by decide
  have hmacro : isMacroLine (memberHead ++ w) = false := rfl
  have hparen : List.contains (memberText name v.masked) '(' = false := by
    obtain ⟨t, ht, hplain⟩ := exists_memberText_masked h.name_isIdentifier v
    have hnot : '(' ∉ t := fun hmem => absurd (hplain _ hmem).1 (by decide)
    rw [ht]
    simp [hnot]
  have hlimit : page.statementEnd (pos + gap.length) limit < limit := by
    have hstop := h.statementEnd_add_one
    have hle := h.le_limit
    omega
  simp only [insideStep, Page.bodyItem, Page.bodyLine, Page.constructAt, takeConstruct, ho, hu, hu',
    hw, hw', hstart, hempty, hdirective, hlabel, hnested, hword, htemplate, hskipped, hmacro,
    h.slice_masked_declaration, hparen, h.findChar?_semicolon,
    Option.filter_some, hlimit, decide_true, Bool.false_and, Option.isSome_none, Bool.false_eq_true,
    if_false, if_true]

/-- **What the step adds**: the member, whose initializer is the literal with its blanks
squeezed. -/
theorem exists_member (s : HeaderScan) {o : OpenType} (ho : o.bodyEnd = limit) :
    ∃ m, m.name = name ∧ m.initializer = some v.text.squeeze ∧
      (insideStep page s o pos).1.types = s.types ∧
      (insideStep page s o pos).1.current = some (o.addMember m) ∧
      (insideStep page s o pos).2 = page.afterStatementWithin (trailingComment page
        (pos + gap.length + (memberText name v.text).length)).stop limit := by
  have hne : v.text.squeeze ≠ [] := by simp [v.squeeze_text]
  obtain ⟨m, hm, hmname, hvalue⟩ :=
    memberDecl?_memberText h.name_isIdentifier v.trim_squeeze_text hne o.visibility
  have hread : memberDecl? o.visibility (memberCode (page.text.slice (pos + gap.length)
      (page.statementEnd (pos + gap.length) limit + 1))) = some m := by
    rw [h.slice_text_declaration, memberCode_memberText h.name_isIdentifier, hm]
  obtain ⟨m', hcurrent, hname', hvalue', htypes, hstop⟩ :=
    memberStep_of_member (s := s) hread (page.lineOf pos)
  rw [h.insideStep_eq s ho, ← h.statementEnd_add_one]
  exact ⟨m', hname'.trans hmname, hvalue'.trans hvalue, htypes, hcurrent,
    congrArg (page.afterStatementWithin · limit) hstop⟩

end Page.ShowsMember

/-! ### A class with the member -/

/-- The page of a header with a class whose only statement is the declaration. -/
theorem Page.showsClass_memberText {owner name : Text} (howner : isIdentifier owner = true)
    (hname : isIdentifier name = true) (v : StringLiteral) (path : Text) :
    (Page.ofText (classText owner (memberText name v.text)) path).ShowsClass owner
      (memberText name v.text) (memberText name v.masked) := by
  have hnormal : (memberText name v.text).normalizeNewlines = memberText name v.text :=
    normalizeNewlines_eq (lineBreak_notMem_memberText hname (.inr rfl)
      (v.lineBreak_notMem_text (.inr rfl)))
  have hclosed : ClosesBraces (memberText name v.masked) := by
    obtain ⟨t, ht, hplain⟩ := exists_memberText_masked hname v
    refine closesBraces_of_nested (p := isBracket) (by decide) (by decide)
      (nestedFrom_nil_of_forall fun c hc => ?_)
    rw [ht, List.mem_append, List.mem_singleton] at hc
    rcases hc with hc | rfl
    · exact (hplain c hc).1
    · decide
  have hmask : maskCode ((memberText name v.text).normalizeNewlines ++ " \x7d;".toList) =
      memberText name v.masked ++ " \x7d;".toList := by
    rw [hnormal, maskCode, maskFrom_memberText hname]
    rfl
  have hpage := Page.showsClass_ofText howner hmask hclosed path
  rwa [hnormal] at hpage

namespace Page.ShowsClass

variable {page : Page} {owner name : Text} {v : StringLiteral}

/-- The declaration stands at the start of the body. -/
theorem showsMember (h : page.ShowsClass owner (memberText name v.text) (memberText name v.masked))
    (hname : isIdentifier name = true) :
    page.ShowsMember (owner.length + 8) (page.openClass owner).bodyEnd [' '] name v
      " \x7d;".toList where
  name_isIdentifier := hname
  gap_isBlank := by decide
  gap_isLine := by decide
  mask_eq := h.mask_eq
  text_eq := by
    rw [h.text_eq, drop_classText]
    rfl
  masked_eq := by
    rw [h.masked_eq, h.text_eq, drop_classText, drop_classText,
      maskFrom_code_cons (by decide) (by decide), maskFrom_memberText hname]
    rfl
  le_limit := by
    have hlength := length_memberText_masked name v
    rw [h.bodyEnd_openClass, List.length_singleton]
    omega

/-- No comment follows it. -/
theorem stop_trailingComment {masked : Text}
    (h : page.ShowsClass owner (memberText name v.text) masked) {pos : Nat}
    (hpos : pos = owner.length + 8 + [' '].length + (memberText name v.text).length) :
    (trailingComment page pos).stop = pos := by
  have hdrop : page.text.drop pos = " \x7d;".toList := by
    rw [hpos, ← List.drop_drop, ← List.drop_drop, h.text_eq, drop_classText]
    exact List.drop_left
  have hrest : page.text.slice pos (page.lineEnd pos) = " \x7d;".toList := by
    rw [page.slice_lineEnd, hdrop]
    rfl
  have hcode : Text.trimStart " \x7d;".toList = "\x7d;".toList := rfl
  simp only [trailingComment, hrest, hcode]
  rfl

/-- What a class is read as whose only statement is the declaration. -/
theorem map_types_member
    (h : page.ShowsClass owner (memberText name v.text) (memberText name v.masked))
    (howner : isIdentifier owner = true) (hfinal : owner ≠ "final")
    (hname : isIdentifier name = true) :
    ∃ m, (readHeader page).1.types.map (fun d => (d.name, d.methods, d.members)) =
        [(owner, [], [m])] ∧
      m.name = name ∧ m.initializer = some v.text.squeeze := by
  have hshows := h.showsMember hname
  have hend := h.bodyEnd_openClass
  have hlength := length_memberText_masked name v
  obtain ⟨m, hmname, hvalue, htypes, hcurrent, hstop⟩ :=
    hshows.exists_member (page.inClass owner) rfl
  rw [h.stop_trailingComment rfl,
    h.afterStatementWithin_eq (by rw [List.length_singleton]; omega) hshows.le_limit, hend] at hstop
  have hmap := h.map_types_of_insideStep howner hfinal (Prod.ext rfl hstop) hcurrent htypes hend
    rfl rfl
  exact ⟨_, hmap, hmname, hvalue⟩

end Page.ShowsClass

/-- **A class with the member** has it with the blanks of its literal squeezed. -/
theorem parseHeader_memberText {owner name : Text} (howner : isIdentifier owner = true)
    (hfinal : owner ≠ "final") (hname : isIdentifier name = true) (v : StringLiteral)
    (path : Text) :
    ∃ m, (parseHeader (classText owner (memberText name v.text)) path).1.types.map
        (fun d => (d.name, d.methods, d.members)) = [(owner, [], [m])] ∧
      m.name = name ∧ m.initializer = some v.text.squeeze :=
  (Page.showsClass_memberText howner hname v path).map_types_member howner hfinal hname

/-- **Which literals are kept.** A member that is declared with a string literal, wherever the
declaration stands in the body of a class, gets the literal with its blanks squeezed, and so does an
initializer in a list. So a literal is kept as it is written if and only if each run of blanks in it
is one space. -/
theorem initializer_literal (owner name : Text) (howner : isIdentifier owner = true)
    (hfinal : owner ≠ "final") (hname : isIdentifier name = true) (v : StringLiteral)
    (path : Text) :
    (∀ (page : Page) (s : HeaderScan) (o : OpenType) (pos : Nat) (gap rest : Text),
      page.ShowsMember pos o.bodyEnd gap name v rest →
      ∃ m, (insideStep page s o pos).1.current = some (o.addMember m) ∧ m.name = name ∧
        m.initializer = some v.text.squeeze) ∧
    (∃ m, (parseHeader (classText owner (memberText name v.text)) path).1.types.map
        (fun d => (d.name, d.methods, d.members)) = [(owner, [], [m])] ∧ m.name = name ∧
      (m.initializer = some v.text ↔ v.content.squeeze = v.content)) ∧
    (parseInitializers (name ++ '(' :: (v.text ++ [')'])) = [⟨name, v.text⟩] ↔
      v.content.squeeze = v.content) := by
  refine ⟨fun page s o pos gap rest h => ?_, ?_, ?_⟩
  · obtain ⟨m, hmname, hvalue, -, hcurrent, -⟩ := h.exists_member s rfl
    exact ⟨m, hcurrent, hmname, hvalue⟩
  · obtain ⟨m, hmap, hmname, hvalue⟩ := parseHeader_memberText howner hfinal hname v path
    refine ⟨m, hmap, hmname, ?_⟩
    rw [hvalue, Option.some.injEq, v.squeeze_text_eq_iff]
  · rw [v.parseInitializers_text hname, List.cons.injEq, Initializer.mk.injEq,
      ← v.squeeze_text_eq_iff]
    simp

/-- A literal whose blanks are single spaces. -/
def plainLiteral : StringLiteral where
  encoding := []
  content := "a, b // (c) \\\" d"
  encoding_mem := by decide
  content_isClosed := by decide
  content_isLine := by decide

/-- It is kept, with its comma, slashes, bracket and quote. -/
theorem initializer_plainLiteral :
    (∃ m, (parseHeader "class Shape \x7b static const CString title = \"a, b // (c) \\\" d\"; \x7d;"
        "Shape.h").1.types.map (fun d => (d.name, d.methods, d.members)) =
          [("Shape".toList, [], [m])] ∧
      m.initializer = some "\"a, b // (c) \\\" d\"") ∧
    parseInitializers "title(\"a, b // (c) \\\" d\")" = [⟨"title", "\"a, b // (c) \\\" d\""⟩] := by
  obtain ⟨-, ⟨m, hmap, -, hvalue⟩, hlist⟩ := initializer_literal "Shape" "title"
    (by decide) (by decide) (by decide) plainLiteral "Shape.h"
  have htext : classText "Shape" (memberText "title" plainLiteral.text)
      = "class Shape \x7b static const CString title = \"a, b // (c) \\\" d\"; \x7d;" := by
    decide +kernel
  have hsqueezed : Text.squeeze plainLiteral.content = plainLiteral.content := by
    decide +kernel
  rw [htext] at hmap
  exact ⟨⟨m, hmap, hvalue.mpr hsqueezed⟩, hlist.mpr hsqueezed⟩

/-- A literal with two spaces in a row. -/
def spacedLiteral : StringLiteral where
  encoding := []
  content := "a  b"
  encoding_mem := by decide
  content_isClosed := by decide
  content_isLine := by decide

/-- **A literal is not kept** if there are two spaces in a row in it. -/
theorem not_forall_initializer_literal :
    ¬ ∀ (owner name path : Text) (v : StringLiteral), isIdentifier owner = true → owner ≠ "final" →
      isIdentifier name = true →
      (∃ m, (parseHeader (classText owner (memberText name v.text)) path).1.types.map
          (fun d => (d.name, d.methods, d.members)) = [(owner, [], [m])] ∧
        m.initializer = some v.text) ∧
      parseInitializers (name ++ '(' :: (v.text ++ [')'])) = [⟨name, v.text⟩] := by
  intro h
  obtain ⟨-, hlist⟩ := h "Shape" "title" "Shape.h" spacedLiteral (by decide) (by decide) (by decide)
  rw [spacedLiteral.parseInitializers_text (by decide), List.cons.injEq, Initializer.mk.injEq,
    spacedLiteral.squeeze_text_eq_iff] at hlist
  exact absurd hlist.1.2 (by decide)

end Sharpen
