import Sharpen.Proofs.Decl.InitializerList

/-!
# The Text of a Constructor

A constructor is written `Shape() : size(1), name{2} { … }`: its name, a list of member initializers
and a block. Neither the list nor the block has comments or literals, the brackets of the list close
each other, and so do the braces of the block.

These are the facts about the written text that the readers of headers and of sources have in
common. Both look for the end of a statement, for a closing brace and for the first brace behind the
parameters, and all three depend only on which brackets are nested and where the first brace stands.

## Main definitions

* `constructorText` — the text of a constructor.
* `listStart` — the part of the list before its first brace, and where the two fall apart.

## Main results

* `isBare_constructorText` — it is shown in the masked copy as it is.
* `closesBraces_constructorText` — it closes the braces that it opens.
-/

namespace Sharpen

/-- The text of a constructor with its initializers and its body. -/
def constructorText (name : Text) (ws : List WrittenInit) (block : Text) : Text :=
  name ++ ("() : ".toList ++ (initList ws ++ (" \x7b".toList ++ (block ++ ['\x7d']))))

/-! ### Bare code -/

/-- A character that is neither a quote nor a slash leaves the text behind it bare. -/
theorem isBare_cons_of_ne {c : Char} (hquote : isQuote c = false) (hslash : c ≠ '/') {r : Text}
    (hr : isBare r = true) : isBare (c :: r) = true := by
  simp [isBare, hquote, opensComment, hslash, hr]

/-- A written initializer has neither literals nor comments. -/
theorem WrittenInit.isBare_text (w : WrittenInit) : isBare w.text = true := by
  have hopening : isQuote w.opening = false ∧ w.opening ≠ '/' := by
    rw [opening]
    split <;> decide
  have hclosing : isBare [w.closing] = true ∧ opensComment '/' [w.closing] = false := by
    rw [closing]
    split <;> decide
  have hopens : opensComment '/' (w.opening :: (w.value ++ [w.closing])) = false := by
    rw [opening]
    split <;> rfl
  exact isBare_append (isBare_of_isWord w.forall_isWord_name)
    (isBare_cons_of_ne hopening.1 hopening.2
      (isBare_append w.value_isBare hclosing.1 hclosing.2)) hopens

/-- So has a list of them. -/
theorem isBare_initList (ws : List WrittenInit) : isBare (initList ws) = true := by
  induction ws with
  | nil => rfl
  | cons w ws ih =>
      cases ws with
      | nil =>
          rw [initList_singleton]
          exact w.isBare_text
      | cons v ws =>
          rw [initList_cons_cons]
          refine isBare_append w.isBare_text ?_ rfl
          exact isBare_cons_of_ne (by decide) (by decide)
            (isBare_cons_of_ne (by decide) (by decide) ih)

section

variable {name block : Text} (hname : isIdentifier name = true) (ws : List WrittenInit)

include hname

/-- **The text of a constructor is bare.** -/
theorem isBare_constructorText (hblock : isBare block = true) :
    isBare (constructorText name ws block) = true := by
  obtain ⟨-, -, -, -, hword⟩ := isIdentifier_cons hname
  have hend : isBare (block ++ ['\x7d']) = true := isBare_append hblock (by decide) (by decide)
  have hbody : isBare (" \x7b".toList ++ (block ++ ['\x7d'])) = true :=
    isBare_cons_of_ne (by decide) (by decide) (isBare_cons_of_ne (by decide) (by decide) hend)
  have hlist : isBare ("() : ".toList ++ (initList ws ++ (" \x7b".toList ++ (block ++ ['\x7d'])))) =
      true := by
    have htail := isBare_append (isBare_initList ws) hbody rfl
    exact isBare_cons_of_ne (by decide) (by decide) <| isBare_cons_of_ne (by decide) (by decide) <|
      isBare_cons_of_ne (by decide) (by decide) <| isBare_cons_of_ne (by decide) (by decide) <|
      isBare_cons_of_ne (by decide) (by decide) htail
  exact isBare_append (isBare_of_isWord hword) hlist rfl

end

/-! ### Line endings -/

/-- A written initializer is on one line. -/
theorem WrittenInit.covers_text (w : WrittenInit) : LineClass.oneLine.Covers w.text := by
  have hword : LineClass.oneLine.Covers w.name := LineClass.covers_oneLine_iff.mpr
    ⟨fun hmem => absurd (w.forall_isWord_name _ hmem) (by decide),
      fun hmem => absurd (w.forall_isWord_name _ hmem) (by decide)⟩
  have hvalue : LineClass.oneLine.Covers w.value :=
    w.value_isNormal ▸ LineClass.covers_normalizeBlanks w.value
  have hopening : w.opening ≠ '\n' ∧ w.opening ≠ '\r' := by
    rw [opening]
    split <;> decide
  have hclosing : w.closing ≠ '\n' ∧ w.closing ≠ '\r' := by
    rw [closing]
    split <;> decide
  rw [LineClass.covers_oneLine_iff] at hword hvalue ⊢
  simp only [text, List.mem_append, List.mem_cons, List.not_mem_nil, or_false, not_or]
  exact ⟨⟨hword.1, hopening.1.symm, hvalue.1, hclosing.1.symm⟩,
    hword.2, hopening.2.symm, hvalue.2, hclosing.2.symm⟩

/-- A list of initializers stands on one line. -/
theorem covers_initList (ws : List WrittenInit) : LineClass.oneLine.Covers (initList ws) :=
  (LineClass.covers_join (LineClass.covers_literal (by decide))).mpr fun t ht => by
    obtain ⟨w, -, rfl⟩ := List.mem_map.mp ht
    exact w.covers_text

/-- A list of them has no carriage return. -/
theorem notMem_return_initList (ws : List WrittenInit) : '\r' ∉ initList ws :=
  (LineClass.covers_oneLine_iff.mp (covers_initList ws)).2

/-- The line endings of a constructor are those of its body. -/
theorem normalizeNewlines_constructorText {name : Text} (hname : isIdentifier name = true)
    (ws : List WrittenInit) (block : Text) :
    (constructorText name ws block).normalizeNewlines =
      constructorText name ws block.normalizeNewlines := by
  obtain ⟨-, -, -, -, hword⟩ := isIdentifier_cons hname
  have hreturn : '\r' ∉ name := fun hmem => absurd (hword _ hmem) (by decide)
  rw [constructorText, normalizeNewlines_append hreturn, normalizeNewlines_append (by decide),
    normalizeNewlines_append (notMem_return_initList ws), normalizeNewlines_append (by decide),
    normalizeNewlines_append_cons block (by decide)]
  rfl

/-! ### Closed braces -/

/-- Nested text in front of nested text. -/
theorem nestedFrom_append {p : Char → Bool} {awaited : List Char} {t : Text}
    (h : nestedFrom p awaited t = true) (others : List Char) (u : Text) :
    nestedFrom p (awaited ++ others) (t ++ u) = nestedFrom p others u := by
  fun_induction nestedFrom p awaited t with
  | case1 awaited =>
      rw [List.isEmpty_iff.mp h]
      rfl
  | case2 awaited c r hc close hclosing ih =>
      rw [List.cons_append, nestedFrom, if_pos hc]
      simp only [hclosing]
      exact ih h
  | case3 awaited c r hc hclosing ih =>
      rw [Bool.and_eq_true, beq_iff_eq] at h
      rw [List.cons_append, nestedFrom, if_pos hc]
      simp only [hclosing]
      rw [eq_cons_of_head? h.1, List.cons_append, List.head?_cons, List.tail_cons, ih h.2]
      simp
  | case4 awaited c r hc ih =>
      rw [List.cons_append, nestedFrom, if_neg hc]
      exact ih h

/-- The brackets of a written initializer are nested. -/
theorem WrittenInit.nestedFrom_text (w : WrittenInit) : nestedFrom isBracket [] w.text = true := by
  have hname : nestedFrom isBracket [] w.name = true :=
    nestedFrom_nil_of_forall fun c hc => isBracket_eq_false_of_isWord (w.forall_isWord_name c hc)
  have hvalue := nestedFrom_append w.value_isNested [w.closing] [w.closing]
  have hbrackets : nestedFrom isBracket [] (w.opening :: (w.value ++ [w.closing])) = true := by
    rw [nestedFrom, if_pos w.isBracket_opening]
    simp only [w.closingBracket_opening]
    refine hvalue.trans ?_
    rw [nestedFrom, if_pos w.isBracket_closing]
    simp [w.closingBracket_closing, nestedFrom]
  exact (nestedFrom_append hname [] _).trans hbrackets

/-- So are those of a list. -/
theorem nestedFrom_initList (ws : List WrittenInit) :
    nestedFrom isBracket [] (initList ws) = true := by
  induction ws with
  | nil => rfl
  | cons w ws ih =>
      cases ws with
      | nil =>
          rw [initList_singleton]
          exact w.nestedFrom_text
      | cons v ws =>
          rw [initList_cons_cons]
          exact (nestedFrom_append w.nestedFrom_text [] _).trans ih

/-- A text without braces closes them. -/
theorem closesBraces_of_forall {t : Text} (h : ∀ c ∈ t, isBrace c = false) : ClosesBraces t :=
  closesBraces_of_nested (by decide) (by decide) (nestedFrom_nil_of_forall h)

/-- A character of a word is no brace. -/
theorem isBrace_eq_false_of_isWord {c : Char} (h : isWord c = true) : isBrace c = false := by
  simp [isBrace, ne_of_isWord h (show isWord '\x7b' = false by decide),
    ne_of_isWord h (show isWord '\x7d' = false by decide)]

/-- A block between its braces. -/
theorem nestedFrom_block {block : Text} (h : nestedFrom isBrace [] block = true) :
    nestedFrom isBrace [] ('\x7b' :: (block ++ ['\x7d'])) = true :=
  nestedFrom_append h ['\x7d'] ['\x7d']

/-- **A constructor closes the braces that it opens.** -/
theorem closesBraces_constructorText {name block : Text} (hname : isIdentifier name = true)
    (ws : List WrittenInit) (hblock : nestedFrom isBrace [] block = true) :
    ClosesBraces (constructorText name ws block) := by
  obtain ⟨-, -, -, -, hword⟩ := isIdentifier_cons hname
  have hlist : ClosesBraces (initList ws) :=
    closesBraces_of_nested (by decide) (by decide) (nestedFrom_initList ws)
  have hbraces : ClosesBraces (" \x7b".toList ++ (block ++ ['\x7d'])) :=
    (closesBraces_of_forall (t := [' ']) (List.all_iff_forall_prop.mp (by decide))).append
      (closesBraces_of_nested (by decide) (by decide) (nestedFrom_block hblock))
  exact (closesBraces_of_forall fun c hc => isBrace_eq_false_of_isWord (hword c hc)).append
    ((closesBraces_of_forall (List.all_iff_forall_prop.mp (by decide))).append
      (hlist.append hbraces))

/-! ### The end of the statement -/

/-- A search for a closing brace runs on through a word. -/
theorem runsOn_word {t : Text} (h : ∀ c ∈ t, isWord c = true) : runsOn 0 0 t = some (0, 0) :=
  runsOn_plain (fun c hc => ⟨isBracket_eq_false_of_isWord (h c hc),
    ne_of_isWord (h c hc) (by decide)⟩) 0 0

/-- It runs on through an initializer that is written with parentheses. -/
theorem WrittenInit.runsOn_text (w : WrittenInit) (hw : w.braced = false) :
    runsOn 0 0 w.text = some (0, 0) := by
  have hvalue : runsOn 1 0 w.value = some (1, 0) :=
    runsOn_nested w.value_isNested (by decide : (0 : Int) < 1) 0
  rw [text, runsOn_append, runsOn_word w.forall_isWord_name, opening, closing, hw]
  change runsOn 1 0 (w.value ++ [')']) = some (0, 0)
  rw [runsOn_append, hvalue]
  rfl

/-- And through a list of such initializers. -/
theorem runsOn_initList {ws : List WrittenInit} (h : ∀ w ∈ ws, w.braced = false) :
    runsOn 0 0 (initList ws) = some (0, 0) := by
  induction ws with
  | nil => rfl
  | cons w ws ih =>
      obtain ⟨hw, hws⟩ := List.forall_mem_cons.mp h
      cases ws with
      | nil =>
          rw [initList_singleton]
          exact w.runsOn_text hw
      | cons v ws =>
          rw [initList_cons_cons, runsOn_append, w.runsOn_text hw]
          exact ih hws

/-- Where a list has no brace, no initializer in it is written with braces. -/
theorem braced_eq_false {ws : List WrittenInit} (h : '\x7b' ∉ initList ws) :
    ∀ w ∈ ws, w.braced = false := by
  intro w hw
  rw [← Bool.not_eq_true]
  intro hbraced
  refine h (subset_initList hw ?_)
  rw [WrittenInit.text, WrittenInit.opening, hbraced]
  exact List.mem_append_right _ List.mem_cons_self

/-- No statement ends in a constructor before the brace behind its block. -/
theorem exists_runsOn_constructor {name block : Text} {ws : List WrittenInit}
    (hname : isIdentifier name = true) (hlist : '\x7b' ∉ initList ws)
    (hblock : nestedFrom isBrace [] block = true) :
    ∃ x, runsOn 0 0 (name ++ ("() : ".toList ++ (initList ws ++ (" \x7b".toList ++ block)))) =
      some (x, 1) := by
  obtain ⟨-, -, -, -, hword⟩ := isIdentifier_cons hname
  obtain ⟨x, hx⟩ := exists_runsOn_block hblock 0 (by decide : (0 : Int) < 1)
  refine ⟨x, ?_⟩
  rw [runsOn_append, runsOn_word hword, Option.bind_some, runsOn_append,
    show runsOn 0 0 "() : ".toList = some (0, 0) from rfl, Option.bind_some, runsOn_append,
    runsOn_initList (braced_eq_false hlist)]
  exact hx

/-- The last character of a list. -/
theorem exists_initList_eq_concat {ws : List WrittenInit} (hne : ws ≠ []) :
    ∃ t c, initList ws = t ++ [c] ∧ isBracket c = true := by
  induction ws with
  | nil => exact absurd rfl hne
  | cons w ws ih =>
      cases ws with
      | nil =>
          exact ⟨w.name ++ w.opening :: w.value, w.closing,
            by simp [initList_singleton, WrittenInit.text], w.isBracket_closing⟩
      | cons v ws =>
          obtain ⟨t, c, ht, hc⟩ := ih (List.cons_ne_nil v ws)
          exact ⟨w.text ++ ',' :: ' ' :: t, c, by simp [initList_cons_cons, ht], hc⟩

/-! ### The part of the list before its first brace -/

/-- The part of a list of initializers before its first brace. -/
def listStart (ws : List WrittenInit) : Text :=
  (initList ws).takeWhile (· != '\x7b')

/-- What a list starts with, up to its first opening brace, has none. -/
theorem notMem_listStart (ws : List WrittenInit) : '\x7b' ∉ listStart ws := fun hmem => by
  simpa using List.all_eq_true.mp List.all_takeWhile _ hmem

/-- The start of a list whose first initializer has no brace. -/
theorem listStart_cons_cons {w : WrittenInit} (h : '\x7b' ∉ w.text) (v : WrittenInit)
    (ws : List WrittenInit) :
    listStart (w :: v :: ws) = w.text ++ ',' :: ' ' :: listStart (v :: ws) := by
  have hfree : ∀ c ∈ w.text, (c != '\x7b') = true := fun c hc => bne_iff_ne.mpr <| by
    rintro rfl
    exact h hc
  rw [listStart, initList_cons_cons, List.takeWhile_append_of_pos hfree]
  rfl

/-- The start of a list whose first initializer is written in braces. -/
theorem listStart_cons_of_braced {w : WrittenInit} (h : w.braced = true) (ws : List WrittenInit) :
    listStart (w :: ws) = w.name := by
  have hname : ∀ c ∈ w.name, (c != '\x7b') = true := fun c hc =>
    bne_iff_ne.mpr (ne_of_isWord (w.forall_isWord_name c hc) (by decide))
  have hstart : ∃ r, initList (w :: ws) = w.name ++ '\x7b' :: r := by
    cases ws with
    | nil => exact ⟨_, by rw [initList_singleton, WrittenInit.text, WrittenInit.opening, h]; rfl⟩
    | cons v ws =>
        refine ⟨w.value ++ w.closing :: ',' :: ' ' :: initList (v :: ws), ?_⟩
        rw [initList_cons_cons, WrittenInit.text, WrittenInit.opening, h]
        simp
  obtain ⟨r, hr⟩ := hstart
  rw [listStart, hr, List.takeWhile_append_of_pos hname, List.takeWhile_cons_of_neg (by simp),
    List.append_nil]

/-- A list with a brace goes on behind its start. -/
theorem exists_initList_eq {ws : List WrittenInit} (h : '\x7b' ∈ initList ws) :
    ∃ r, initList ws = listStart ws ++ '\x7b' :: r := by
  have hsplit := List.takeWhile_append_dropWhile (p := (· != '\x7b')) (l := initList ws)
  cases hdrop : (initList ws).dropWhile (· != '\x7b') with
  | nil =>
      rw [hdrop, List.append_nil] at hsplit
      rw [← hsplit] at h
      exact absurd h (notMem_listStart ws)
  | cons c r =>
      have hhead := List.head?_dropWhile_not (· != '\x7b') (initList ws)
      rw [hdrop] at hhead
      have hc : c = '\x7b' := by simpa using hhead
      rw [hdrop, hc] at hsplit
      exact ⟨r, hsplit.symm⟩

/-- A part of a text in which no statement ends. -/
theorem exists_runsOn_of_prefix {parens braces : Int} {d : Int × Int} {t u : Text} (htu : t <+: u)
    (h : runsOn parens braces u = some d) : ∃ d', runsOn parens braces t = some d' := by
  obtain ⟨v, rfl⟩ := htu
  rw [runsOn_append] at h
  obtain ⟨d', hd', -⟩ := Option.bind_eq_some_iff.mp h
  exact ⟨d', hd'⟩

/-- What stands in front of a character is found in the text that has it, whatever follows the text.
-/
theorem takeWhile_append_of_mem {t u : Text} {x : Char} (h : x ∈ t) :
    (t ++ u).takeWhile (· != x) = t.takeWhile (· != x) := by
  rw [List.takeWhile_append, if_neg]
  intro hlength
  have hself := (List.takeWhile_prefix (l := t) (· != x)).eq_of_length hlength
  simpa using List.takeWhile_eq_self_iff.mp hself x h

/-- No statement ends in an initializer before its first brace. -/
theorem WrittenInit.exists_runsOn_takeWhile (w : WrittenInit) :
    ∃ d, runsOn 0 0 (w.text.takeWhile (· != '\x7b')) = some d := by
  cases hw : w.braced with
  | false => exact exists_runsOn_of_prefix (List.takeWhile_prefix _) (w.runsOn_text hw)
  | true =>
      have hstart : w.text.takeWhile (· != '\x7b') = w.name := by
        rw [text, List.takeWhile_append_of_pos fun c hc => bne_iff_ne.mpr
          (ne_of_isWord (w.forall_isWord_name c hc) (by decide)), opening, hw,
          List.takeWhile_cons_of_neg (by simp), List.append_nil]
      rw [hstart]
      exact ⟨_, runsOn_word w.forall_isWord_name⟩

/-- **No statement ends in the list before its first brace.** -/
theorem exists_runsOn_listStart (ws : List WrittenInit) :
    ∃ d, runsOn 0 0 (listStart ws) = some d := by
  induction ws with
  | nil => exact ⟨_, rfl⟩
  | cons w ws ih =>
      cases ws with
      | nil =>
          rw [listStart, initList_singleton]
          exact w.exists_runsOn_takeWhile
      | cons v ws =>
          rw [listStart, initList_cons_cons]
          by_cases hbrace : '\x7b' ∈ w.text
          · rw [takeWhile_append_of_mem hbrace]
            exact w.exists_runsOn_takeWhile
          · have hw : w.braced = false :=
              braced_eq_false (by rwa [initList_singleton]) w (List.mem_singleton_self w)
            rw [← initList_cons_cons, ← listStart, listStart_cons_cons hbrace, runsOn_append,
              w.runsOn_text hw]
            exact ih

end Sharpen
