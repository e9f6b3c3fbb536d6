import Sharpen.Proofs.Header.Constructor
import Sharpen.Proofs.Header.Persistence

/-!
# The Initializers of a Header

The initializers of a method are read from the text between a colon and the first brace behind it.
So there are no braces in their values. And a method that has been read is there at the end: later
steps only add to a type, or attach a region marker to its last method.

The list of a constructor in a header is read up to the first brace behind the colon, whether the
brace opens the body or the value of an initializer. If there is a brace in the list, what is read
is a part of it with fewer characters, so it is not the list. If there is none, the list is read as
a whole and the body from its opening brace.

## Main definitions

* `HeaderScan.HasInitializers` — a method with given initializers has been read; it is there at the
  end.
* `ReadWithout` — initializers are read from a text without the given character.
* `TypeDecl.initializerLists` — the initializers of the methods of a type.
* `Header.IsConstructor` — a header is read as a class with one constructor, which has the given
  initializers and body.

## Main results

* `initializers_methodDecl` — where the initializers of a method come from.
* `notMem_value_parseHeader` — there is no brace in a value, where all of the text is code.
* `HeaderScan.HasInitializers.exists_types` — what has been read is there at the end.
* `Page.ShowsClass.exists_hasInitializers` — the first brace of the list is taken for that of the
  body: what stands before it is read as the initializers.
* `parseHeader_constructor_iff` — where a list ends in a header: a constructor in a class is read
  with its initializers and its body if and only if there is no brace in the initializers.
-/

namespace Sharpen

/-! ### Where initializers come from -/

/-- Initializers are read from a text without the given character. -/
def ReadWithout (x : Char) (inits : List Initializer) : Prop :=
  ∃ t : Text, x ∉ t ∧ inits = parseInitializers t

/-- What is read from a text without a character has no value with it. -/
theorem ReadWithout.notMem_value {x : Char} (hx : x ≠ ' ') {inits : List Initializer}
    (h : ReadWithout x inits) {i : Initializer} (hi : i ∈ inits) : x ∉ i.value := by
  obtain ⟨t, ht, rfl⟩ := h
  intro hmem
  rcases mem_of_mem_value hi hmem with rfl | hmem
  · exact hx rfl
  · exact ht hmem

/-- There are no initializers in the empty text, which has no character at all. -/
theorem readWithout_nil (x : Char) : ReadWithout x [] :=
  ⟨[], by simp, rfl⟩

/-- What stands before the first place of a character does not have it. -/
theorem notMem_take_findIdx? {t : Text} {x : Char} {i : Nat} (h : t.findIdx? (· == x) = some i) :
    x ∉ t.take i := by
  intro hmem
  obtain ⟨j, hj, heq⟩ := List.mem_take_iff_getElem.mp hmem
  rw [List.findIdx?_eq_some_iff_getElem] at h
  obtain ⟨hi, -, hbefore⟩ := h
  have := hbefore j (by omega)
  simp [heq] at this

/-- The initializers behind a method are read from a text without braces. -/
theorem readWithout_methodTail (t : Text) : ReadWithout '\x7b' (methodTail t t).initializers := by
  rw [methodTail]
  split
  · exact readWithout_nil _
  · rename_i brace hbrace
    dsimp only
    split
    · exact readWithout_nil _
    · exact ⟨_, fun hmem => notMem_take_findIdx? hbrace (List.mem_of_mem_drop hmem), rfl⟩

/-- **Where the initializers of a method come from**: what stands behind its parameters. -/
theorem initializers_methodDecl {stem owner masked text : Text} {visibility : Visibility}
    {position : Nat} {m : Method}
    (h : methodDecl stem owner visibility position masked text = .method m) :
    ∃ i, m.initializers = (methodTail (masked.drop i) (text.drop i)).initializers := by
  obtain ⟨closing, name, before, -, -, ⟨-, rfl⟩ | rfl | ⟨body, indent, rfl⟩⟩ :=
    exists_of_methodDecl h
  all_goals exact ⟨closing + 1, rfl⟩

/-- Every method of an open type has initializers from text without braces. -/
theorem Page.keeps_readWithout {page : Page} (hmasked : page.masked = page.text) :
    page.Keeps fun _ o => ∀ m ∈ o.decl.methods, ReadWithout '\x7b' m.initializers where
  opens _ _ := by simp [Page.opened]
  stays h _ := h
  grows {pos o o'} h _ hgrows := by
    cases hgrows with
    | label | regionStart | constant | member => exact h
    | regionEnd =>
        obtain ⟨methods, members, heq, hmethods, -⟩ := o.endRegion_eq _
        rw [heq]
        exact hmethods h fun _ hm => hm
    | method _ _ _ hread =>
        refine forall_mem_concat h ?_
        obtain ⟨i, hinits⟩ := initializers_methodDecl hread
        rw [hmasked] at hinits
        dsimp only
        rw [hinits]
        exact readWithout_methodTail _

/-- **There is no brace in the value of an initializer** of a header without comments and
literals. -/
theorem notMem_value_parseHeader {text path : Text}
    (hmasked : (Page.ofText text path).masked = (Page.ofText text path).text) {d : TypeDecl}
    (hd : d ∈ (parseHeader text path).1.types) {m : Method} (hm : m ∈ d.methods) {i : Initializer}
    (hi : i ∈ m.initializers) : '\x7b' ∉ i.value := by
  obtain ⟨pos, o, name, constants, ho, -, rfl⟩ :=
    (Page.keeps_readWithout hmasked).forall_types d hd
  obtain ⟨m', hm', rfl⟩ := List.mem_map.mp hm
  exact (ho m' hm').notMem_value (by decide) hi

/-! ### What has been read stays -/

/-- The initializers of the methods of a type. -/
def TypeDecl.initializerLists (d : TypeDecl) : List (List Initializer) :=
  d.methods.map Method.initializers

/-- A method with the given initializers has been read: a finished type has it, or the open type
does, and will be finished. -/
def HeaderScan.HasInitializers (s : HeaderScan) (inits : List Initializer) : Prop :=
  (∃ o, s.current = some o ∧ o.decl.name ≠ [] ∧ o.isTypedef = false ∧
    inits ∈ o.decl.initializerLists) ∨
  ∃ d ∈ s.types, inits ∈ d.initializerLists

/-- One more method adds its initializers. -/
theorem initializerLists_addMethod (o : OpenType) (m : Method) :
    (o.addMethod m).decl.initializerLists = o.decl.initializerLists ++ [m.initializers] := by
  simp [OpenType.addMethod, TypeDecl.initializerLists]

/-- A method keeps its initializers. -/
theorem Page.lasting_initializerLists (page : Page) (inits : List Initializer) :
    page.Lasting fun d => inits ∈ d.initializerLists := by
  have hlasting : page.Lasting fun d => ∃ m ∈ d.methods, m.initializers = inits :=
    page.lasting_exists_method (fun _ _ h => h) fun _ _ h => h
  simpa only [TypeDecl.initializerLists, List.mem_map] using hlasting

/-- **What has been read is there at the end.** -/
theorem HeaderScan.HasInitializers.exists_types {page : Page} {s : HeaderScan} {pos : Nat}
    {inits : List Initializer} (h : s.HasInitializers inits) (hreach : page.Reaches s pos)
    (hpage : page.masked.length = page.text.length) :
    ∃ d ∈ (readHeader page).1.types, inits ∈ d.initializerLists := by
  have hread : s.HasRead page fun d => inits ∈ d.initializerLists :=
    h.imp_left fun ⟨o, hs, hname, _, hinits⟩ => ⟨o, hs, Or.inl hname, hinits⟩
  exact hread.exists_types (page.lasting_initializerLists inits) hreach hpage

/-! ### A list with braces -/

/-- Whether a character is part of words, or between them. -/
def isPlain (c : Char) : Bool :=
  isWord c || isBlank c

/-- The last character that is no part of words. -/
def lastMark (t : Text) : Option Char :=
  (t.reverse.dropWhile isPlain).head?

/-- Plain characters behind a text leave its last mark. -/
theorem lastMark_append (t : Text) {u : Text} (hu : ∀ c ∈ u, isPlain c = true) :
    lastMark (t ++ u) = lastMark t := by
  rw [lastMark, List.reverse_append,
    List.dropWhile_append_of_pos fun c hc => hu c (List.mem_reverse.mp hc), lastMark]

/-- A character that is not plain is the last mark. -/
theorem lastMark_concat {x : Char} (hx : isPlain x = false) (t : Text) :
    lastMark (t ++ [x]) = some x := by
  rw [lastMark, List.reverse_concat, List.dropWhile_cons_of_neg (by simp [hx]), List.head?_cons]

/-- Blanks at the end are plain. -/
theorem lastMark_trimEnd (t : Text) : lastMark t.trimEnd = lastMark t := by
  have hblank : ∀ r : Text, (r.dropWhile isBlank).dropWhile isPlain = r.dropWhile isPlain := by
    intro r
    induction r with
    | nil => rfl
    | cons c r ih =>
        by_cases hc : isBlank c = true
        · rw [List.dropWhile_cons_of_pos hc, ih, List.dropWhile_cons_of_pos (by simp [isPlain, hc])]
        · rw [List.dropWhile_cons_of_neg hc]
  rw [lastMark, Text.trimEnd, Text.dropEndWhile, List.reverse_reverse, hblank, lastMark]

/-- Before a value there is its equals sign. -/
theorem lastMark_of_endsWithValue {w t : Text} (hw : ∀ c ∈ w, isPlain c = true)
    (h : endsWithValue w t = true) : lastMark t.trim = some '=' := by
  simp only [endsWithValue, Bool.and_eq_true, Text.endsWith, List.isSuffixOf_iff_suffix] at h
  obtain ⟨⟨v, hv⟩, z, hz⟩ := h
  rw [← hv, List.length_append, Nat.add_sub_cancel, List.take_left] at hz
  rw [← hv, lastMark_append v hw, ← lastMark_trimEnd, ← hz]
  exact lastMark_concat (by decide) z

/-- A text does not end with a value if another mark comes before its last words. -/
theorem endsWithValue_eq_false_of_mark {w : Text} (hw : ∀ c ∈ w, isPlain c = true) {x : Char}
    (hx : isPlain x = false) (hne : x ≠ '=') (t : Text) {u : Text}
    (hu : ∀ c ∈ u, isPlain c = true) : endsWithValue w (t ++ x :: u) = false := by
  rw [← Bool.not_eq_true]
  intro h
  have hblank : isBlank x = false := by
    rw [isPlain, Bool.or_eq_false_iff] at hx
    exact hx.2
  obtain ⟨t', ht'⟩ := Text.exists_trimStart_append hblank t u
  have hmark : lastMark (Text.trim (t ++ x :: u)) = some x := by
    rw [Text.trim, ht', lastMark_trimEnd, List.append_cons, lastMark_append _ hu,
      lastMark_concat hx]
  rw [lastMark_of_endsWithValue hw h] at hmark
  exact hne (Option.some.inj hmark).symm

/-- What a list with braces starts with ends with the name of a member. -/
theorem exists_mark_listStart {ws : List WrittenInit} (hvalues : ∀ w ∈ ws, '\x7b' ∉ w.value)
    (hbrace : '\x7b' ∈ initList ws) {x : Char} (hx : x = ':' ∨ x = ',') :
    ∃ t y u, x :: ' ' :: listStart ws = t ++ y :: u ∧ (y = ':' ∨ y = ',') ∧
      ∀ c ∈ u, isPlain c = true := by
  induction ws generalizing x with
  | nil => simp [initList, Text.join] at hbrace
  | cons w ws ih =>
      obtain ⟨hw, hws⟩ := List.forall_mem_cons.mp hvalues
      cases hbraced : w.braced with
      | true =>
          refine ⟨[], x, ' ' :: w.name, by rw [listStart_cons_of_braced hbraced]; rfl, hx, ?_⟩
          refine List.forall_mem_cons.mpr ⟨by decide, fun c hc => ?_⟩
          simp [isPlain, w.forall_isWord_name c hc]
      | false =>
          have hfree : '\x7b' ∉ w.text := by
            have hname : '\x7b' ∉ w.name := fun hmem =>
              absurd (w.forall_isWord_name _ hmem) (by decide)
            simp [WrittenInit.text, WrittenInit.opening, WrittenInit.closing, hbraced, hname, hw]
          cases ws with
          | nil =>
              rw [initList_singleton] at hbrace
              exact absurd hbrace hfree
          | cons v ws =>
              have hbrace' : '\x7b' ∈ initList (v :: ws) := by
                rw [initList_cons_cons] at hbrace
                simpa [hfree] using hbrace
              obtain ⟨t, y, u, heq, hy⟩ := ih hws hbrace' (Or.inr rfl)
              refine ⟨x :: ' ' :: (w.text ++ t), y, u, ?_, hy⟩
              rw [listStart_cons_cons hfree, heq]
              simp

/-- What a list with a brace starts with has fewer characters than the list, apart from blanks. -/
theorem codeLength_listStart_lt {ws : List WrittenInit} (hbrace : '\x7b' ∈ initList ws) :
    codeLength (' ' :: listStart ws) < codeLength (initList ws) := by
  obtain ⟨r, hr⟩ := exists_initList_eq hbrace
  rw [hr, codeLength_append, codeLength_cons, codeLength_cons, if_pos (by decide),
    if_neg (by decide)]
  omega

/-- **The first brace of the list is taken for that of the body**: what stands before it is read as
the initializers. -/
theorem Page.ShowsClass.exists_hasInitializers {page : Page} {name block : Text}
    {ws : List WrittenInit} (h : page.ShowsClass name (constructorText name ws block)
      (constructorText name ws block)) (hname : isOwnerName name = true)
    (hvalues : ∀ w ∈ ws, '\x7b' ∉ w.value) (hbrace : '\x7b' ∈ initList ws) :
    ∃ s pos, page.Reaches s pos ∧
      s.HasInitializers (parseInitializers (' ' :: listStart ws)) := by
  obtain ⟨hident, hreserved, hoperator⟩ := isOwnerName_spec hname
  simp only [reservedNames, List.mem_append, not_or] at hreserved
  have hfinal : name ≠ "final" := fun heq => hreserved.2 (by simp [heq])
  obtain ⟨x, r, hcons, -, hword⟩ := isIdentifier_cons hident
  obtain ⟨l, hl⟩ := exists_initList_eq hbrace
  obtain ⟨d, hd⟩ := exists_runsOn_listStart ws
  have hruns : runsOn 0 0 (name ++ ("() : ".toList ++ (listStart ws ++ ['\x7b']))) =
      some (d.1, d.2 + 1) := by
    rw [runsOn_append, runsOn_word hword, Option.bind_some, runsOn_append,
      show runsOn 0 0 "() : ".toList = some (0, 0) from rfl, Option.bind_some, runsOn_append, hd]
    rfl
  have hsplit : constructorText name ws block ++ [' '] =
      (name ++ ("() : ".toList ++ (listStart ws ++ ['\x7b']))) ++
        (l ++ (" \x7b".toList ++ (block ++ ['\x7d', ' ']))) := by
    rw [constructorText, hl]
    simp
  obtain ⟨v, v', hv, hvne, hstop, hmasked, htext⟩ := h.exists_statement hsplit hruns (by simp)
  have hstatement : (name ++ ("() : ".toList ++ (listStart ws ++ ['\x7b']))) ++ v =
      name ++ ("() : ".toList ++ (listStart ws ++ '\x7b' :: v)) := by
    simp
  have hdelete : endsWithValue "delete" (" : ".toList ++ listStart ws) = false := by
    obtain ⟨t, y, u, heq, hy, hu⟩ := exists_mark_listStart hvalues hbrace (Or.inl rfl)
    have hlist : " : ".toList ++ listStart ws = (' ' :: t) ++ y :: u := congrArg (' ' :: ·) heq
    have hy : isPlain y = false ∧ y ≠ '=' := by
      rcases hy with rfl | rfl <;> decide
    rw [hlist]
    exact endsWithValue_eq_false_of_mark (List.all_iff_forall_prop.mp (by decide)) hy.1 hy.2 _ hu
  obtain ⟨m, hmethod, -, hinits, -⟩ := methodDecl_constructor hident hreserved.1.1.2 hoperator
    (notMem_listStart ws) hdelete v page.stem (page.openClass name).visibility (name.length + 9)
  rw [hstatement] at hmasked htext
  have hstep := h.insideStep_constructor hname (m := ") : ".toList ++ (initList ws ++
      (" \x7b".toList ++ (block ++ ['\x7d'])))) rfl rfl (page.inClass name)
    (w := ") : ".toList ++ (listStart ws ++ '\x7b' :: v)) hmasked
  have hreach := (h.reaches_inClass hident hfinal).step (by rw [h.length_text]; omega)
  refine ⟨_, _, hreach, Or.inl ?_⟩
  have hbody := h.bodyEnd_openClass
  have hinside : headerStep page (page.inClass name) (name.length + 8) =
      insideStep page (page.inClass name) (page.openClass name) (name.length + 8) := by
    rw [headerStep, page.current_inClass name]
    dsimp only
    rw [if_neg (by omega)]
  obtain ⟨order, comments, -, hcurrent⟩ := methodStep_of_method (s := page.inClass name)
    (o := page.openClass name) (by rw [hmasked, htext]; exact hmethod)
      (page.lineOf (name.length + 8))
  rw [hinside, hstep, hcurrent]
  refine ⟨_, rfl, ?_, rfl, ?_⟩
  · change name ≠ []
    rw [hcons]
    exact List.cons_ne_nil x r
  · rw [initializerLists_addMethod]
    exact List.mem_append_right _ (List.mem_singleton.mpr hinits.symm)

/-- A header is read as a class with one constructor, which has the given initializers and body. -/
def Header.IsConstructor (header : Header) (name : Text) (inits : List Initializer) (body : Text) :
    Prop :=
  ∃ d m, header.types = [d] ∧ d.name = name ∧ d.methods = [m] ∧ m.isConstructor = true ∧
    m.initializers = inits ∧ m.hasInlineBody = true ∧ m.inlineBody = body

/-- **Where a list ends in a header**: a constructor in a class is read with its initializers and
its body if and only if there is no brace in the initializers. -/
theorem parseHeader_constructor_iff {name block : Text} {ws : List WrittenInit}
    (hname : isOwnerName name = true) (hne : ws ≠ []) (hbare : isBare block = true)
    (hblock : nestedFrom isBrace [] block = true) (path : Text) :
    (parseHeader (classText name (constructorText name ws block)) path).1.IsConstructor name
      (ws.map WrittenInit.toInitializer) (normalizeBlock block).1 ↔ '\x7b' ∉ initList ws := by
  have hpage := Page.showsClass_constructorText (isOwnerName_spec hname).1 ws hbare hblock path
  constructor
  · rintro ⟨d, m, htypes, -, hmethods, -, hinits, -⟩ hbrace
    have hvalues : ∀ w ∈ ws, '\x7b' ∉ w.value := by
      intro w hw
      have hmasked : (Page.ofText (classText name (constructorText name ws block)) path).masked =
          (Page.ofText (classText name (constructorText name ws block)) path).text :=
        hpage.masked_eq.trans hpage.text_eq.symm
      refine notMem_value_parseHeader hmasked (d := d) (htypes ▸ List.mem_singleton_self d)
        (m := m) (hmethods ▸ List.mem_singleton_self m) (i := w.toInitializer) ?_
      rw [hinits]
      exact List.mem_map_of_mem hw
    obtain ⟨s, pos, hreach, hs⟩ := hpage.exists_hasInitializers hname hvalues hbrace
    obtain ⟨d', hd', hmem⟩ := hs.exists_types hreach (Page.length_masked hpage.mask_eq)
    rw [show (readHeader _).1.types = [d] from htypes, List.mem_singleton] at hd'
    rw [hd', TypeDecl.initializerLists, hmethods, List.map_singleton, List.mem_singleton,
      hinits] at hmem
    exact parseInitializers_ne_of_codeLength_lt hne (codeLength_listStart_lt hbrace) hmem
  · intro hbrace
    obtain ⟨m, hmap, hm⟩ := parseHeader_constructor hname hne hbrace hbare hblock path
    obtain ⟨d, hd, heq⟩ := List.map_eq_singleton_iff.mp hmap
    simp only [Prod.mk.injEq] at heq
    exact ⟨d, m, hd, heq.1, heq.2.1, hm⟩

end Sharpen
