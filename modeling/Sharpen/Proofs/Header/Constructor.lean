import Sharpen.Proofs.Decl.ConstructorText
import Sharpen.Proofs.Header.OneClass
import Sharpen.Proofs.Source.Reads

/-!
# A Constructor in a Class

A class with nothing but a constructor, which is written with a list of member initializers and a
body. The first brace behind the parameters is taken for the one that opens the body. So the list
and the body are told apart if and only if there is no brace in the list.

The statement holds for every list and every block that can be written, with the list and the block
both nested. What the class has in the end is compared with what was written, both ways: without a
brace in the list the constructor is read as it should be, and with one it is not.

## Main results

* `insideStep_constructor` — the step that reads it as a method.
* `methodDecl_constructor` — what it is read as.
* `Page.ShowsClass.map_types_of_methodDecl` — a class has the method that its statement is read as.
* `parseHeader_constructor` — a constructor in a class is read with its initializers and its body,
  if there is no brace in the initializers.
-/

namespace Sharpen

/-! ### Telling the constructor from other constructs -/

section

variable {name : Text} (hname : ∀ c ∈ name, isWord c = true) {x : Char} (hx : isWord x = false)

variable (hblank : isBlank x = false)

include hname hblank

/-- Behind a part of the name there is the rest of it, or what follows the name. -/
theorem exists_cons_of_append {w v : Text} (hv : name = w ++ v) (z : Text) :
    ∃ y u, v ++ x :: z = y :: u ∧ isBlank y = false ∧ (isWord y = true ∨ v = [] ∧ y = x) := by
  cases v with
  | nil => exact ⟨x, z, rfl, hblank, Or.inr ⟨rfl, rfl⟩⟩
  | cons y v =>
      have hy : isWord y = true := hname y (hv ▸ List.mem_append_right _ List.mem_cons_self)
      exact ⟨y, v ++ x :: z, rfl, isBlank_eq_false_of_isWord hy, Or.inl hy⟩

include hx

/-- There is no `typedef` in front of a name: a blank would follow it. -/
theorem typedef_eq_none {c : Cursor} {z : Text} (hc : c.rest = name ++ x :: z) :
    (do Reader.text "typedef"; Reader.blanks1 : Reader Unit).run c = none := by
  rw [Option.eq_none_iff_forall_ne_some]
  rintro ⟨_, c'⟩ hrun
  simp only [StateT.run_bind, Option.bind_eq_bind, Option.bind_eq_some_iff] at hrun
  obtain ⟨⟨_, c₁⟩, htext, hblanks⟩ := hrun
  have hsplit := (Reader.readsBy_text "typedef" _ _).mp ⟨_, c₁, htext, rfl⟩
  rw [hc] at hsplit
  obtain ⟨v, hv⟩ := exists_append_of_prefix hx (w := "typedef".toList)
    (List.all_iff_forall_prop.mp (by decide))
    ⟨c₁.rest, hsplit.symm⟩
  obtain ⟨y, u, hy, hyblank, -⟩ := exists_cons_of_append hname hblank hv z
  have hrest : c₁.rest = y :: u := by
    rw [hv, List.append_assoc] at hsplit
    rw [← List.append_cancel_left hsplit, hy]
  rw [Reader.blanks1_eq_none hrest hyblank] at hblanks
  cases hblanks

/-- A name is not taken for one of the words that it is not. -/
theorem keyword_eq_none {ws : List Text} (hws : ∀ w ∈ ws, ∀ c ∈ w, isWord c = true)
    (hnot : name ∉ ws) {c c' : Cursor} {w z : Text} (hc : c.rest = name ++ x :: z)
    (hrun : (Reader.oneOf ws).run c = some (w, c')) : Reader.wordEnd.run c' = none := by
  obtain ⟨hmem, hprefix, hrest⟩ := Reader.oneOf_eq_some hrun
  rw [hc] at hprefix hrest
  obtain ⟨v, hv⟩ := exists_append_of_prefix hx (hws w hmem) hprefix
  obtain ⟨y, u, hy, -, hword⟩ := exists_cons_of_append hname hblank hv z
  rw [hv, List.append_assoc, List.drop_left, hy] at hrest
  have hend : isWord y = true := by
    refine hword.resolve_right fun hnil => hnot ?_
    rw [hv, hnil.1, List.append_nil]
    exact hmem
  simp [StateT.run, Reader.wordEnd, hrest, hend]

end

section

variable {name : Text} (hname : ∀ c ∈ name, isWord c = true) (z : Text)

include hname

/-- A name in front of a parenthesis is no access label. -/
theorem accessLabel_constructor : accessLabel.read (name ++ '(' :: z) = none := by
  rw [Reader.read, Reader.readAt, Option.map_eq_none_iff, Option.eq_none_iff_forall_ne_some]
  rintro ⟨a, c'⟩ hrun
  simp only [accessLabel, StateT.run_bind, Option.bind_eq_bind, Option.bind_eq_some_iff] at hrun
  obtain ⟨⟨w, c₁⟩, hlabel, ⟨_, c₂⟩, hblanks, ⟨_, c₃⟩, hcolon, -⟩ := hrun
  obtain ⟨hmem, hprefix, hrest⟩ := Reader.oneOf_eq_some hlabel
  have hword : ∀ w ∈ [("public" : Text), "private", "protected"], ∀ c ∈ w, isWord c = true :=
    forall_mem_mem_of_all (by decide)
  obtain ⟨v, hv⟩ := exists_append_of_prefix (by decide) (hword w hmem) hprefix
  obtain ⟨y, u, hy, hblank, hcolon'⟩ := exists_cons_of_append (x := '(') hname (by decide) hv z
  have hne : y ≠ ':' := by
    rcases hcolon' with hword | ⟨-, rfl⟩
    · exact ne_of_isWord hword (by decide)
    · decide
  have hrest₁ : c₁.rest = y :: u := by
    rw [hrest, ← hy]
    change (name ++ '(' :: z).drop w.length = v ++ '(' :: z
    rw [hv, List.append_assoc, List.drop_left]
  have hrest₂ := (Reader.readsBy_blanks c₁ _).mp ⟨_, c₂, hblanks, rfl⟩
  rw [hrest₁, List.dropWhile_cons_of_neg (by simp [hblank])] at hrest₂
  have hrest₃ := (Reader.readsBy_char ':' c₂ _).mp ⟨_, c₃, hcolon, rfl⟩
  rw [← hrest₂] at hrest₃
  exact hne (List.cons.inj hrest₃).1

/-- Unless it is one of the words that introduce a type, it introduces none. -/
theorem nestedType_constructor (hnested : name ∉ nestedKeywords) :
    nestedType.read (name ++ '(' :: z) = none := by
  have hparen : isWord '(' = false := by decide
  have hrest : (Cursor.at (name ++ '(' :: z) 0).rest = name ++ '(' :: z := rfl
  rw [Reader.read, Reader.readAt, Option.map_eq_none_iff, Option.eq_none_iff_forall_ne_some]
  rintro ⟨a, c'⟩ hrun
  simp only [nestedType, StateT.run_bind, Option.bind_eq_bind, Option.bind_eq_some_iff] at hrun
  obtain ⟨⟨_, c₁⟩, htypedef, ⟨w, c₂⟩, hkeyword, hend⟩ := hrun
  rw [Reader.option_eq_none (typedef_eq_none hname hparen (by decide) hrest)] at htypedef
  obtain ⟨-, rfl⟩ := Prod.mk.inj (Option.some.inj htypedef)
  rw [keyword_eq_none hname hparen (by decide) (forall_mem_mem_of_all (by decide)) hnested hrest
    hkeyword] at hend
  cases hend

end

/-- The name of an owner is an identifier, not reserved, and not that of an operator. -/
theorem isOwnerName_spec {name : Text} (h : isOwnerName name = true) :
    isIdentifier name = true ∧ name ∉ reservedNames ∧ Text.hasInfix name "operator" = false := by
  simpa [isOwnerName, and_assoc] using h

/-! ### The step that reads it -/

namespace Page.ShowsClass

variable {page : Page} {name body masked : Text}

/-- **A name in front of a parenthesis is read as a method.** -/
theorem insideStep_constructor (h : page.ShowsClass name body masked)
    (hname : isOwnerName name = true) {m b w : Text} (hmasked : masked = name ++ '(' :: m)
    (hbody : body = name ++ '(' :: b) (s : HeaderScan)
    (hstatement : page.masked.slice (name.length + 9)
      (page.statementEnd (name.length + 9) (page.openClass name).bodyEnd + 1) = name ++ '(' :: w) :
    insideStep page s (page.openClass name) (name.length + 8) =
      (methodStep page s (page.openClass name) (name.length + 9)
          (page.statementEnd (name.length + 9) (page.openClass name).bodyEnd + 1)
          (page.lineOf (name.length + 8)),
        page.afterStatementWithin
          (page.statementEnd (name.length + 9) (page.openClass name).bodyEnd + 1)
          (page.openClass name).bodyEnd) := by
  obtain ⟨hident, hreserved, -⟩ := isOwnerName_spec hname
  obtain ⟨x, r, hcons, -, hword⟩ := isIdentifier_cons hident
  have hx : isWord x = true := hword x (hcons ▸ List.mem_cons_self)
  have hblank := isBlank_eq_false_of_isWord hx
  have hnewline : '\n' ∉ name ++ ['('] := by
    rw [List.mem_append, List.mem_singleton, not_or]
    exact ⟨fun hmem => absurd (hword _ hmem) (by decide), by decide⟩
  have hcode : ∀ u : Text, ∃ z, Text.trim (' ' :: (name ++ ['('] ++ u)) = name ++ '(' :: z := by
    intro u
    rw [hcons, List.append_assoc]
    exact Text.exists_trim_line hblank (by decide) r u
  have hline := h.slice_masked_line (m := m) (by rw [hmasked, List.append_cons]) hnewline
  have hline' := h.slice_text_line (b := b) (by rw [hbody, List.append_cons]) hnewline
  obtain ⟨z, hz⟩ := hcode (Text.firstLine (m ++ [' ']))
  obtain ⟨z', hz'⟩ := hcode (Text.firstLine (b ++ [' ']))
  have hstart : name.length + 8 + ((' ' :: (name ++ ['('] ++ Text.firstLine (m ++ [' ']))).length -
      (Text.trimStart (' ' :: (name ++ ['('] ++ Text.firstLine (m ++ [' '])))).length) =
      name.length + 9 := by
    rw [Text.trimStart_cons_blank (by decide), hcons, List.append_assoc, List.cons_append,
      Text.trimStart_cons_code (by simp [hblank]), List.length_cons]
    simp
  have htakeWhile : (name ++ '(' :: z).takeWhile (fun c => c == '~' || isWord c) = name := by
    rw [List.takeWhile_append_of_pos fun c hc => by simp [hword c hc],
      List.takeWhile_cons_of_neg (by decide), List.append_nil]
  have hempty : List.isEmpty (name ++ '(' :: z) = false := by simp
  have hdirective : Text.startsWith (name ++ '(' :: z') "#" = false := by
    have hmark : ('#' == x) = false := by simpa using (ne_of_isWord hx (by decide)).symm
    rw [hcons]
    change ('#' == x && true) = false
    rw [hmark]
    rfl
  have hkeyword : name ∉ skippedKeywords ∧ name ∉ nestedKeywords := by
    simp only [reservedNames, List.mem_append, not_or] at hreserved
    exact ⟨hreserved.1.1.1, hreserved.1.2⟩
  have hskipped : skippedKeywords.contains name = false := by simpa using hkeyword.1
  have htemplate : (name == "template".toList) = false := by
    rw [beq_eq_false_iff_ne]
    rintro rfl
    exact hkeyword.1 (by decide)
  have hmacro : ((page.openClass name).decl.name.isEmpty ||
      !Text.startsWith (name ++ '(' :: z) (page.openClass name).decl.name) = false := by
    change (name.isEmpty || !name.isPrefixOf (name ++ '(' :: z)) = false
    rw [List.isPrefixOf_iff_prefix.mpr (List.prefix_append name _), hcons]
    rfl
  have hmethod : (List.contains (name ++ '(' :: w) '(' &&
      !(List.takeWhile (fun c => c != '(') (name ++ '(' :: w)).contains '=') = true := by
    have hhead : List.takeWhile (fun c => c != '(') (name ++ '(' :: w) = name := by
      rw [List.takeWhile_append_of_pos fun c hc => bne_iff_ne.mpr
          (ne_of_isWord (hword c hc) (by decide)),
        List.takeWhile_cons_of_neg (by decide), List.append_nil]
    have hequals : '=' ∉ name := fun hmem => absurd (hword _ hmem) (by decide)
    rw [hhead]
    simp [hequals]
  simp only [insideStep, Page.bodyItem, Page.bodyLine, Page.constructAt, takeConstruct, hline,
    hline', hz, hz', hstart, htakeWhile, hempty, hdirective, accessLabel_constructor hword,
    nestedType_constructor hword _ hkeyword.2, htemplate, hskipped, hmacro, hstatement, hmethod,
    Bool.and_false, Option.isSome_none, Bool.false_eq_true, if_false,
    if_true]

end Page.ShowsClass

/-! ### What it is read as -/

/-- A text that ends with another character does not end with the word. -/
theorem endsWithValue_eq_false {w : Text} {c : Char} (hw : w.getLast? ≠ some c) (hne : w ≠ [])
    (hc : isBlank c = false) (t : Text) {gap : Text} (hgap : gap.isBlank = true) :
    endsWithValue w (t ++ c :: gap) = false := by
  obtain ⟨z, hz⟩ := Text.exists_trimStart_append hc t gap
  have htrim : Text.trim (t ++ c :: gap) = z ++ [c] := by
    rw [Text.trim, hz, List.append_cons, Text.trimEnd, Text.dropEndWhile_append_of_all hgap,
      Text.dropEndWhile_concat hc]
  have hends : Text.endsWith (z ++ [c]) w = false := by
    rw [← Bool.not_eq_true, Text.endsWith, List.isSuffixOf_iff_suffix]
    rintro ⟨v, hv⟩
    have hlast := congrArg List.getLast? hv
    rw [List.getLast?_append_of_ne_nil _ hne, List.getLast?_concat] at hlast
    exact hw hlast
  rw [endsWithValue, htrim, hends, Bool.false_and]

section

variable {name : Text} (hident : isIdentifier name = true)

include hident

/-- An identifier is one word. -/
theorem words_identifier : Text.words name = [name] := by
  obtain ⟨x, r, hcons, -, hword⟩ := isIdentifier_cons hident
  have hwords : ∀ (c : Char) (t : Text), (∀ y ∈ c :: t, isWord y = true) →
      Text.words (c :: t) = [c :: t] := by
    intro c t ht
    induction t generalizing c with
    | nil =>
        have hc := isBlank_eq_false_of_isWord (ht c List.mem_cons_self)
        simp [Text.words, hc]
    | cons d t ih =>
        have hc := isBlank_eq_false_of_isWord (ht c List.mem_cons_self)
        have hd := isBlank_eq_false_of_isWord (ht d (by simp))
        rw [Text.words, ih d fun y hy => ht y (List.mem_cons_of_mem _ hy)]
        simp [hc, hd, Text.consHead]
  rw [hcons]
  exact hwords x r (hcons ▸ hword)

/-- It is read as the name of a method with nothing before it. -/
theorem methodName?_identifier : methodName? name = some (name, []) := by
  obtain ⟨x, r, hcons, hx, hword⟩ := isIdentifier_cons hident
  have hlast : lastWord name = name := by
    rw [lastWord, List.takeWhile_eq_self_iff.mpr, List.reverse_reverse]
    exact fun c hc => hword c (List.mem_reverse.mp hc)
  have hdrop : name.dropWhile (fun c => !isIdentStart c) = name := by
    rw [hcons, List.dropWhile_cons_of_neg (by simp [hx])]
  have hempty : name.isEmpty = false := by
    rw [hcons]
    rfl
  simp [methodName?, hlast, hdrop, hempty]

omit hident in
/-- What stands behind the parameters of a constructor. -/
theorem methodTail_constructor {list rest : Text} (hbrace : '\x7b' ∉ list) :
    let tail := " : ".toList ++ (list ++ '\x7b' :: rest)
    methodTail tail tail = ⟨[' '], parseInitializers (' ' :: list), some (list.length + 3)⟩ := by
  intro tail
  have hsplit : tail = (" : ".toList ++ list) ++ '\x7b' :: rest := by simp [tail]
  have hhead : '\x7b' ∉ " : ".toList ++ list := by simpa using hbrace
  have hlength : (" : ".toList ++ list).length = list.length + 3 := by simp
  have hfind : tail.findIdx? (· == '\x7b') = some (list.length + 3) := by
    rw [hsplit, findIdx?_append_cons hhead, hlength]
  have htake : tail.take (list.length + 3) = " : ".toList ++ list := by
    rw [hsplit, ← hlength, List.take_left]
  have hcut : cutAtColon? (" : ".toList ++ list) = some ([' '], ' ' :: list) := rfl
  have hslice : Text.slice tail 2 (list.length + 3) = ' ' :: list := by
    rw [Text.slice, htake]
    rfl
  simp only [methodTail, hfind, htake, hcut, List.length_singleton, Nat.reduceAdd, hslice]

/-- **What a constructor is read as**: its initializers are those before the first brace. -/
theorem methodDecl_constructor (hkeyword : name ∉ methodKeywords)
    (hoperator : Text.hasInfix name "operator" = false) {list : Text} (hbrace : '\x7b' ∉ list)
    (hdelete : endsWithValue "delete" (" : ".toList ++ list) = false) (rest stem : Text)
    (visibility : Visibility) (position : Nat) :
    let statement := name ++ ("() : ".toList ++ (list ++ '\x7b' :: rest))
    ∃ m, methodDecl stem name visibility position statement statement = .method m ∧
      m.isConstructor = true ∧ m.initializers = parseInitializers (' ' :: list) ∧
      m.hasInlineBody = true ∧ m.inlineBody = (normalizeBlock
        (rest.take ((closeOffset '\x7b' '\x7d' 0 rest).getD rest.length))).1 := by
  intro statement
  obtain ⟨x, r, hcons, hx, hword⟩ := isIdentifier_cons hident
  have hparen : '(' ∉ name := fun hmem => absurd (hword _ hmem) (by decide)
  have hopening : parametersStart statement = name.length := by
    have hfind : statement.findIdx? (· == '(') = some name.length :=
      findIdx?_append_cons hparen _
    rw [parametersStart, hfind, Option.getD_some]
  have hdrop : statement.drop (name.length + 2) = " : ".toList ++ (list ++ '\x7b' :: rest) := by
    rw [← List.drop_drop, List.drop_left]
    rfl
  have hclosing : matchingAt? '(' ')' statement name.length = some (name.length + 1) := by
    have hdrop : statement.drop (name.length + 1) =
        ')' :: (" : ".toList ++ (list ++ '\x7b' :: rest)) := by
      rw [← List.drop_drop, List.drop_left]
      rfl
    rw [matchingAt?, hdrop]
    simp [closeOffset]
  have hhead : eraseDeclspecs [' '] (statement.take name.length) = name := by
    rw [List.take_left, eraseDeclspecs_eq hparen]
  have htokens : [name].filter (fun w => !methodKeywords.contains w) = [name] := by
    simp [hkeyword]
  have hjoin : Text.join " " [name] = name := by simp [Text.join, List.intercalate]
  have hdestructor : name.startsWith "~" = false := by
    have hmark : ('~' == x) = false := by simpa using (ne_of_isWord (hword x (hcons ▸
      List.mem_cons_self)) (by decide)).symm
    rw [hcons]
    change ('~' == x && true) = false
    rw [hmark]
    rfl
  have hreturn : normalizeType (dropScope (Text.trim [])) = [] := by decide
  have htake : (" : ".toList ++ (list ++ '\x7b' :: rest)).take (list.length + 3) =
      " : ".toList ++ list := by
    simp
  have hrest : (" : ".toList ++ (list ++ '\x7b' :: rest)).drop (list.length + 3 + 1) = rest := by
    simp
  have hblock : ∀ k : Nat, Text.slice (" : ".toList ++ (list ++ '\x7b' :: rest))
      (list.length + 3 + 1) (k + (list.length + 3 + 1)) = rest.take k := by
    intro k
    rw [Text.slice, List.drop_take, hrest, Nat.add_sub_cancel]
  have hclose : (matchingAt? '\x7b' '\x7d' (" : ".toList ++ (list ++ '\x7b' :: rest))
      (list.length + 3)).getD (" : ".toList ++ (list ++ '\x7b' :: rest)).length =
      (closeOffset '\x7b' '\x7d' 0 rest).getD rest.length + (list.length + 3 + 1) := by
    rw [matchingAt?, hrest]
    cases closeOffset '\x7b' '\x7d' 0 rest with
    | none =>
        simp
        omega
    | some k => rfl
  simp only [methodDecl, hopening, Option.getD_some, hclosing, hhead, words_identifier hident,
    hoperator, Bool.false_eq_true, if_false, htokens, List.isEmpty_cons, hjoin,
    methodName?_identifier hident, hreturn, hdestructor, List.isEmpty_nil, Bool.not_false,
    Bool.and_self, Bool.true_and, bne_self_eq_false, hdrop, methodTail_constructor hbrace,
    Option.map_some, htake, hdelete, hclose, hblock]
  exact ⟨_, rfl, rfl, rfl, rfl, rfl⟩

end

/-! ### The statement of the constructor -/

/-- A method that is read is added to the type. -/
theorem methodStep_of_method {page : Page} {s : HeaderScan} {o : OpenType} {start stop : Nat}
    {m : Method} (h : methodDecl page.stem o.decl.name o.visibility start
      (page.masked.slice start stop) (page.text.slice start stop) = .method m) (line : Nat) :
    ∃ order comments, (methodStep page s o start stop line).types = s.types ∧
      (methodStep page s o start stop line).current =
        some (o.addMethod { m with order := order, headerComments := comments }) := by
  rw [methodStep, h]
  exact ⟨_, _, rfl, rfl⟩

namespace Page.ShowsClass

variable {page : Page} {name body : Text}

/-- A statement takes at least the text in which none ends, and the character behind it. -/
theorem exists_statement (h : page.ShowsClass name body body) {t u : Text} {d : Int × Int}
    (hbody : body ++ [' '] = t ++ u) (ht : runsOn 0 0 t = some d) (hu : u ≠ []) :
    ∃ v v' : Text, u = v ++ v' ∧ v ≠ [] ∧
      page.statementEnd (name.length + 9) (page.openClass name).bodyEnd + 1 =
        name.length + 9 + (t ++ v).length ∧
      page.masked.slice (name.length + 9)
        (page.statementEnd (name.length + 9) (page.openClass name).bodyEnd + 1) = t ++ v ∧
      page.text.slice (name.length + 9)
        (page.statementEnd (name.length + 9) (page.openClass name).bodyEnd + 1) = t ++ v := by
  have hend := h.bodyEnd_openClass
  have hlength := congrArg List.length hbody
  rw [List.length_append, List.length_append, List.length_singleton] at hlength
  have hu' := List.length_pos_iff.mpr hu
  obtain ⟨k, hk, hstop⟩ : ∃ k, k < u.length ∧
      page.statementEnd (name.length + 9) (page.openClass name).bodyEnd =
        name.length + 9 + t.length + k := by
    rw [Page.statementEnd, h.slice_masked_statement, hbody, statementOffset?_append ht]
    cases hoffset : statementOffset? d.1 d.2 u with
    | none =>
        exact ⟨u.length - 1, by omega, by simp only [Option.map_none, Option.getD_none]; omega⟩
    | some k =>
        refine ⟨k, statementOffset?_lt hoffset, ?_⟩
        simp only [Option.map_some, Option.getD_some]
        omega
  have hne : u.take (k + 1) ≠ [] := by
    rw [← List.length_pos_iff, List.length_take]
    omega
  have hcount : (t ++ u.take (k + 1)).length = t.length + (k + 1) := by
    rw [List.length_append, List.length_take]
    omega
  have htake : (body ++ [' ']).take (t.length + (k + 1)) = t ++ u.take (k + 1) := by
    rw [hbody, List.take_length_add_append]
  refine ⟨u.take (k + 1), u.drop (k + 1), (List.take_append_drop _ _).symm, hne, by omega, ?_, ?_⟩
  · rw [← htake]
    exact h.slice_statement_eq h.slice_masked_statement (by omega) (by omega)
  · rw [← htake]
    exact h.slice_statement_eq h.slice_text_statement (by omega) (by omega)

/-- **A class has the method that its statement is read as.** -/
theorem map_types_of_methodDecl (h : page.ShowsClass name body body)
    (hname : isOwnerName name = true) {b w : Text} (hbody : body = name ++ '(' :: b) {stop : Nat}
    (hstop : page.statementEnd (name.length + 9) (page.openClass name).bodyEnd + 1 = stop)
    (hle : name.length + body.length + 9 ≤ stop) (hle' : stop ≤ (page.openClass name).bodyEnd)
    (hstatement : page.masked.slice (name.length + 9) stop = name ++ '(' :: w) {m : Method}
    (hmethod : methodDecl page.stem name (page.openClass name).visibility (name.length + 9)
      (page.masked.slice (name.length + 9) stop) (page.text.slice (name.length + 9) stop) =
        .method m) :
    ∃ m', (readHeader page).1.types.map (fun d => (d.name, d.methods, d.members)) =
        [(name, [m'], [])] ∧
      (m.isConstructor = true → m'.isConstructor = true) ∧ m'.initializers = m.initializers ∧
      m'.hasInlineBody = m.hasInlineBody ∧ m'.inlineBody = m.inlineBody := by
  obtain ⟨hident, hreserved, -⟩ := isOwnerName_spec hname
  have hfinal : name ≠ "final" := by
    rintro rfl
    exact hreserved (by decide)
  have hend := h.bodyEnd_openClass
  have hstep := h.insideStep_constructor hname hbody hbody (page.inClass name)
    (hstop.symm ▸ hstatement)
  rw [hstop, h.afterStatementWithin_eq hle hle', hend] at hstep
  obtain ⟨order, comments, htypes, hcurrent⟩ :=
    methodStep_of_method (s := page.inClass name) (o := page.openClass name) hmethod
      (page.lineOf (name.length + 8))
  have hnone : (page.inClass name).types = [] := rfl
  have hmethods : (page.openClass name).decl.methods = [] := rfl
  have hmembers : (page.openClass name).decl.members = [] := rfl
  have hmap := h.map_types_of_insideStep hident hfinal hstep hcurrent (htypes.trans hnone) hend
    rfl rfl
  simp only [OpenType.addMethod, hmethods, hmembers, List.nil_append, List.map_cons,
    List.map_nil] at hmap
  exact ⟨_, hmap, fun hm => by simp [ownedMethod, hm], rfl, rfl, rfl⟩

end Page.ShowsClass

/-- What a class is read as whose only statement is a constructor. The statement ends at the brace
behind the block, or goes on to the end of the class. -/
theorem Page.ShowsClass.map_types_constructor {page : Page} {name block : Text}
    {ws : List WrittenInit} (h : page.ShowsClass name (constructorText name ws block)
      (constructorText name ws block)) (hname : isOwnerName name = true) (hne : ws ≠ [])
    (hlist : '\x7b' ∉ initList ws) (hblock : nestedFrom isBrace [] block = true) :
    ∃ m, (readHeader page).1.types.map (fun d => (d.name, d.methods, d.members)) =
        [(name, [m], [])] ∧
      m.isConstructor = true ∧ m.initializers = ws.map WrittenInit.toInitializer ∧
      m.hasInlineBody = true ∧ m.inlineBody = (normalizeBlock block).1 := by
  obtain ⟨hident, hreserved, hoperator⟩ := isOwnerName_spec hname
  have hkeyword : name ∉ methodKeywords := by
    simp only [reservedNames, List.mem_append, not_or] at hreserved
    exact hreserved.1.1.2
  obtain ⟨x, hruns⟩ := exists_runsOn_constructor hident hlist hblock
  obtain ⟨v, v', hv, hvne, hstop, hmasked, htext⟩ :=
    h.exists_statement (u := ['\x7d', ' ']) (by simp [constructorText]) hruns (by decide)
  obtain ⟨gap, rfl⟩ : ∃ gap, v = '\x7d' :: gap := by
    cases v with
    | nil => exact absurd rfl hvne
    | cons c gap => exact ⟨gap, by rw [(List.cons.inj hv).1]⟩
  have hgap := congrArg List.length hv
  simp only [List.length_append, List.length_cons, List.length_nil] at hgap
  have hlength : (constructorText name ws block).length = (name ++ ("() : ".toList ++
      (initList ws ++ (" \x7b".toList ++ block)))).length + 1 := by
    simp [constructorText]
    omega
  have hend := h.bodyEnd_openClass
  have hstatement : name ++ ("() : ".toList ++ (initList ws ++ (" \x7b".toList ++ block))) ++
      '\x7d' :: gap = name ++ ("() : ".toList ++
      ((initList ws ++ [' ']) ++ '\x7b' :: (block ++ '\x7d' :: gap))) := by
    simp
  have hdelete : endsWithValue "delete" (" : ".toList ++ (initList ws ++ [' '])) = false := by
    obtain ⟨t, c, hc, hbracket⟩ := exists_initList_eq_concat hne
    have hblank : isBlank c = false ∧ "delete".toList.getLast? ≠ some c := by
      simp only [isBracket, Bool.or_eq_true, beq_iff_eq] at hbracket
      rcases hbracket with ((((rfl | rfl) | rfl) | rfl) | rfl) | rfl <;> decide
    rw [hc, List.append_assoc, ← List.append_assoc]
    exact endsWithValue_eq_false hblank.2 (by decide) hblank.1 _ (by decide)
  obtain ⟨m, hmethod, hconstructor, hinits, hinline, hbody⟩ := methodDecl_constructor hident
    hkeyword hoperator (by simpa using hlist) hdelete (block ++ '\x7d' :: gap) page.stem
    (page.openClass name).visibility (name.length + 9)
  rw [List.length_append, List.length_cons] at hstop
  rw [hstatement] at hmasked htext
  obtain ⟨m', hmap, hconstructor', hinits', hinline', hbody'⟩ := h.map_types_of_methodDecl hname
    (b := ") : ".toList ++ (initList ws ++ (" \x7b".toList ++ (block ++ ['\x7d'])))) rfl
    (w := ") : ".toList ++ (initList ws ++ [' '] ++ '\x7b' :: (block ++ '\x7d' :: gap))) rfl
    (by omega) (by omega) hmasked (by rw [hmasked, htext]; exact hmethod)
  have hclose : closeOffset '\x7b' '\x7d' 0 (block ++ '\x7d' :: gap) = some block.length := by
    rw [closesBraces_of_nested (by decide) (by decide) hblock]
    simp [closeOffset]
  rw [hclose, Option.getD_some, List.take_left] at hbody
  rw [parseInitializers_initList hne] at hinits
  exact ⟨m', hmap, hconstructor' hconstructor, hinits'.trans hinits, hinline'.trans hinline,
    hbody'.trans hbody⟩

/-- The page of a header with a class whose only statement is a constructor. -/
theorem Page.showsClass_constructorText {name block : Text} (hname : isIdentifier name = true)
    (ws : List WrittenInit) (hbare : isBare block = true)
    (hblock : nestedFrom isBrace [] block = true) (path : Text) :
    (Page.ofText (classText name (constructorText name ws block)) path).ShowsClass name
      (constructorText name ws block.normalizeNewlines)
      (constructorText name ws block.normalizeNewlines) := by
  have hnested : nestedFrom isBrace [] block.normalizeNewlines = true := by
    rw [nestedFrom_normalizeNewlines (by decide) (by decide), hblock]
  have hmask : maskCode ((constructorText name ws block).normalizeNewlines ++ " \x7d;".toList) =
      constructorText name ws block.normalizeNewlines ++ " \x7d;".toList := by
    rw [normalizeNewlines_constructorText hname, maskCode_of_isBare]
    exact isBare_append (isBare_constructorText hname ws (isBare_normalizeNewlines hbare))
      (by decide) (by decide)
  have hpage := Page.showsClass_ofText hname hmask (closesBraces_constructorText hname ws hnested)
    path
  rwa [normalizeNewlines_constructorText hname] at hpage

/-- **A constructor in a class** is read with its initializers and its body, if there is no brace in
the initializers. -/
theorem parseHeader_constructor {name block : Text} {ws : List WrittenInit}
    (hname : isOwnerName name = true) (hne : ws ≠ []) (hlist : '\x7b' ∉ initList ws)
    (hbare : isBare block = true) (hblock : nestedFrom isBrace [] block = true) (path : Text) :
    ∃ m, (parseHeader (classText name (constructorText name ws block)) path).1.types.map
        (fun d => (d.name, d.methods, d.members)) = [(name, [m], [])] ∧
      m.isConstructor = true ∧ m.initializers = ws.map WrittenInit.toInitializer ∧
      m.hasInlineBody = true ∧ m.inlineBody = (normalizeBlock block).1 := by
  have hpage := Page.showsClass_constructorText (isOwnerName_spec hname).1 ws hbare hblock path
  have hnested : nestedFrom isBrace [] block.normalizeNewlines = true := by
    rw [nestedFrom_normalizeNewlines (by decide) (by decide), hblock]
  have hread := hpage.map_types_constructor hname hne hlist hnested
  rwa [normalizeBlock_normalizeNewlines] at hread

end Sharpen
