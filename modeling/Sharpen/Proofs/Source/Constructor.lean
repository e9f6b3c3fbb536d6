import Sharpen.Proofs.Header.Constructor
import Sharpen.Proofs.Source.Kept

/-!
# A Constructor in a Source File

A source file with nothing but a constructor, which is written with its scope, a list of member
initializers and a body. The list goes up to the first brace or semicolon, and the constructor is
found where a brace comes first. It is taken with all of the text up to the end of its body, so that
nothing else is found in the file.

The passes over a source file are followed to their end. Before implementations are looked for,
nothing is taken, because there is no directive and no type in the text. The first pass takes the
constructor with all of the text. So nothing is left for the second one, for free functions and for
initializers, and the file has one implementation and nothing else.

## Main definitions

* `constructorAt` — the constructor as an implementation at the start of a text.
* `scopedText` — the text of a constructor behind its scope, with what stands before its first
  brace.
* `Track.beyond` — the places from position `n` on.

## Main results

* `implementation_constructor` — the constructor is found at the start of the text.
* `takeImplementation_constructor` — what it is taken for.
* `isTaken_scanBefore` — nothing has been taken before it.
* `exists_passes_eq` — nothing is found but the constructor.
* `parseSource_constructor` — what the file is read as.
* `exists_primaryPass_eq` — the first implementation that is taken is the constructor.
-/

namespace Sharpen

/-! ### Finding it -/

/-- What stands behind the parameters of a constructor. -/
theorem reads_bodyTail {list : Text} (hlist : ∀ c ∈ list, c ≠ '\x7b' ∧ c ≠ ';') (i : Nat)
    (rest : Text) :
    bodyTail.Reads i (" :".toList ++ (list ++ '\x7b' :: rest))
      ⟨false, some (i + 2, i + 2 + list.length), i + 2 + list.length⟩ (i + 2 + list.length + 1)
      rest := by
  have hconst : ∀ c : Cursor, c.rest = ':' :: (list ++ '\x7b' :: rest) →
      (Reader.word "const").run c = none := by
    intro c hc
    have htext : (Reader.text "const").run c = none := by
      simp [StateT.run, Reader.text, hc]
    rw [Reader.word, StateT.run_bind, htext]
    rfl
  refine (Reader.reads_blanks [' '] rfl rfl).bind ?_
  refine (Reader.reads_present_none hconst).bind ?_
  refine (Reader.reads_blanks [] rfl rfl).bind ?_
  refine Reader.Reads.bind (Reader.Reads.option ?_) (Reader.reads_here.bind <|
    (Reader.reads_char '\x7b').bind <| Reader.reads_pure _)
  refine (Reader.reads_char ':').bind <| Reader.reads_here.bind ?_
  exact (Reader.reads_many (t := list) (fun c hc => by simpa using hlist c hc) rfl).bind <|
    Reader.reads_here.bind <| Reader.reads_pure _

/-- The name of a constructor with its scope. -/
theorem reads_scopedName {name : Text} (hname : isIdentifier name = true) (i : Nat) (rest : Text) :
    scopedName.Reads i (name ++ ("::".toList ++ (name ++ '(' :: rest)))
      ⟨name, i, name, i + name.length + 2 + name.length⟩ (i + name.length + 2 + name.length + 1)
      rest := by
  obtain ⟨x, r, hcons, hx, hword⟩ := isIdentifier_cons hname
  have hne : name ≠ [] := by
    rw [hcons]
    exact List.cons_ne_nil x r
  have htilde : ∀ c : Cursor, c.rest = name ++ '(' :: rest → (Reader.char '~').run c = none := by
    intro c hc
    have hmark : (x == '~') = false := by
      simpa using ne_of_isWord (hword x (hcons ▸ List.mem_cons_self)) (by decide)
    rw [hcons] at hc
    simp [Reader.char, Reader.satisfy, StateT.run, bind, StateT.bind, hc, hmark]
  have hblank : (name ++ '(' :: rest).head?.any isBlank = false := by
    rw [hcons]
    exact isBlank_eq_false_of_isWord (hword x (hcons ▸ List.mem_cons_self))
  have hident : methodIdent.Reads (i + name.length + 2) (name ++ '(' :: rest) name
      (i + name.length + 2 + name.length) ('(' :: rest) :=
    (Reader.reads_present_none htilde).bind <|
      (Reader.reads_many1 hword rfl hne).bind <| Reader.reads_pure name
  refine Reader.reads_here.bind <| (Reader.reads_many1 hword rfl hne).bind ?_
  refine (Reader.reads_blanks [] rfl rfl).bind <| (Reader.reads_text _).bind ?_
  refine (Reader.reads_blanks [] rfl hblank).bind <| hident.bind ?_
  refine (Reader.reads_blanks [] rfl rfl).bind <| Reader.reads_here.bind ?_
  exact (Reader.reads_char '(').bind <| Reader.reads_pure _

/-- The constructor as an implementation at the start of a text. -/
def constructorAt (name list : Text) : Implementation where
  head := []
  start := 0
  target := ⟨name, 0, name, 2 * name.length + 2⟩
  parenEnd := 2 * name.length + 3
  tail := ⟨false, some (2 * name.length + 6, 2 * name.length + 6 + list.length),
    2 * name.length + 6 + list.length⟩

/-- **The implementation of a constructor is found** at the start of a text. -/
theorem implementation_constructor {name list : Text} (hname : isIdentifier name = true)
    (hlist : ∀ c ∈ list, c ≠ '\x7b' ∧ c ≠ ';') (rest : Text) :
    ∃ c, implementation.run ⟨0, none, name ++ ("::".toList ++ (name ++ ("() :".toList ++ (list ++
      '\x7b' :: rest))))⟩ = some (constructorAt name list, c) := by
  obtain ⟨x, r, hcons, hx, hword⟩ := isIdentifier_cons hname
  have hrun : (name ++ ("::".toList ++ (name ++ ("() :".toList ++ (list ++
      '\x7b' :: rest))))).takeWhile isHeadChar = name ++ ("::".toList ++ name) := by
    have hhead : ∀ c ∈ name ++ ("::".toList ++ name), isHeadChar c = true := by
      have hcolons : ∀ c ∈ "::".toList, isHeadChar c = true :=
        List.all_iff_forall_prop.mp (by decide)
      have hchars : ∀ c ∈ name, isHeadChar c = true := fun c hc => by simp [isHeadChar, hword c hc]
      exact List.forall_mem_append.mpr ⟨hchars, List.forall_mem_append.mpr ⟨hcolons, hchars⟩⟩
    rw [← List.append_assoc, ← List.append_assoc, List.append_assoc name,
      List.takeWhile_append_of_pos hhead]
    exact List.append_nil _
  have hlengths : headLengths (name ++ ("::".toList ++ name)) = [0] := by
    have hcolons : ∀ c ∈ "::".toList, isHeadEnd c = false :=
      List.all_iff_forall_prop.mp (by decide)
    have hchars : ∀ c ∈ name, isHeadEnd c = false := fun c hc => by
      simp [isHeadEnd, isSpaceOrTab, ne_of_isWord (hword c hc) (show isWord ' ' = false by decide),
        ne_of_isWord (hword c hc) (show isWord '\t' = false by decide),
        ne_of_isWord (hword c hc) (show isWord '*' = false by decide),
        ne_of_isWord (hword c hc) (show isWord '&' = false by decide)]
    have hnone : ∀ c ∈ name ++ ("::".toList ++ name), isHeadEnd c = false :=
      List.forall_mem_append.mpr ⟨hchars, List.forall_mem_append.mpr ⟨hcolons, hchars⟩⟩
    rw [headLengths, List.filter_eq_nil_iff.mpr]
    · rfl
    · intro k hk
      rw [List.mem_range] at hk
      rw [List.getElem?_eq_getElem hk, Option.any_some, hnone _ (List.getElem_mem hk)]
      simp
  have hspace : (name ++ ("::".toList ++ (name ++ ("() :".toList ++ (list ++
      '\x7b' :: rest))))).head?.any isSpaceOrTab = false := by
    rw [hcons]
    simp [isSpaceOrTab, ne_of_isWord (hword x (hcons ▸ List.mem_cons_self))
      (show isWord ' ' = false by decide), ne_of_isWord (hword x (hcons ▸ List.mem_cons_self))
      (show isWord '\t' = false by decide)]
  have hinner : Reader.Reads (do
      let target ← scopedName
      let _ ← Reader.many fun c => c != '(' && c != ')'
      let parenEnd ← Reader.here
      Reader.char ')'
      let tail ← bodyTail
      pure (target, parenEnd, tail) : Reader (ScopedName × Nat × BodyTail))
      0 (name ++ ("::".toList ++ (name ++ ("() :".toList ++ (list ++ '\x7b' :: rest)))))
      ((constructorAt name list).target, (constructorAt name list).parenEnd,
        (constructorAt name list).tail) (2 * name.length + 6 + list.length + 1) rest := by
    have hpositions : 0 + name.length + 2 + name.length = 2 * name.length + 2 := by omega
    have hscoped :=
      reads_scopedName hname 0 (')' :: (" :".toList ++ (list ++ '\x7b' :: rest)))
    rw [hpositions] at hscoped
    refine hscoped.bind ?_
    refine (Reader.reads_many (t := []) (by simp) rfl).bind <| Reader.reads_here.bind ?_
    exact (Reader.reads_char ')').bind <| (reads_bodyTail hlist _ _).bind <| Reader.reads_pure _
  refine Reader.Reads.lineStart (j := 2 * name.length + 6 + list.length + 1) (u := rest) ?_
  refine (Reader.reads_many (t := []) (by simp) hspace).bind <| Reader.reads_here.bind ?_
  refine (Reader.reads_ahead isHeadChar).bind ?_
  rw [hrun, hlengths]
  exact hinner.behind.bind (Reader.reads_pure _)

/-! ### Taking it -/

/-- The text of a constructor behind its scope, with what stands before its first brace. -/
def scopedText (name list rest : Text) : Text :=
  name ++ ("::".toList ++ (name ++ ("() :".toList ++ (list ++ '\x7b' :: rest))))

/-- Behind the opening brace of the constructor is the rest of the text. -/
theorem drop_scopedText (name list rest : Text) :
    (scopedText name list rest).drop (2 * name.length + 6 + list.length + 1) = rest := by
  have hsplit : scopedText name list rest =
      (name ++ ("::".toList ++ (name ++ ("() :".toList ++ (list ++ ['\x7b']))))) ++ rest := by
    simp [scopedText]
  have hlength : 2 * name.length + 6 + list.length + 1 =
      (name ++ ("::".toList ++ (name ++ ("() :".toList ++ (list ++ ['\x7b']))))).length := by
    simp
    omega
  rw [hsplit, hlength, List.drop_left]

/-- Between the parameters and the opening brace is the list. -/
theorem slice_scopedText (name list rest : Text) :
    (scopedText name list rest).slice (2 * name.length + 6) (2 * name.length + 6 + list.length) =
      list := by
  have hsplit : scopedText name list rest =
      (name ++ ("::".toList ++ (name ++ "() :".toList))) ++ (list ++ '\x7b' :: rest) := by
    simp [scopedText]
  have hlength : 2 * name.length + 6 =
      (name ++ ("::".toList ++ (name ++ "() :".toList))).length := by
    simp
    omega
  rw [Text.slice, List.drop_take, hsplit, hlength, List.drop_left, Nat.add_sub_cancel_left,
    List.take_left]

/-- **What a constructor is taken for** at the start of a source file. The words of the return type
are looked for above the constructor, where there is nothing. -/
theorem takeImplementation_constructor {page : SourcePage} {name list rest : Text}
    (hname : isIdentifier name = true) (htext : page.text = scopedText name list rest)
    (hmasked : page.masked = page.text) (hscope : page.atFileScope 0 = true) {s : SourceScan}
    (hs : s.isTaken 0 = false) :
    ∃ m s', takeImplementation page ([], s) (constructorAt name list) = ([m], s') ∧
      m.isConstructor = true ∧ m.owner = name ∧ m.initializers = parseInitializers list ∧
      m.body = some (normalizeBlock
        (rest.take ((closeOffset '\x7b' '\x7d' 0 rest).getD rest.length))).1 ∧
      (0, (closeOffset '\x7b' '\x7d' 0 rest).getD rest.length +
        (2 * name.length + 6 + list.length + 1) + 1) ∈ s'.spans := by
  obtain ⟨x, r, hcons, -, hword⟩ := isIdentifier_cons hname
  have hhead : headAbove page.masked 0 = ([], 0) := rfl
  have hinit : initText page (constructorAt name list).tail = list := by
    change page.text.slice (2 * name.length + 6) (2 * name.length + 6 + list.length) = list
    rw [htext, slice_scopedText]
  have hdrop : page.masked.drop (2 * name.length + 6 + list.length + 1) = rest := by
    rw [hmasked, htext, drop_scopedText]
  have hlength : page.text.length = rest.length + (2 * name.length + 6 + list.length + 1) := by
    rw [htext]
    simp [scopedText]
    omega
  have hclose : (matchingAt? '\x7b' '\x7d' page.masked (2 * name.length + 6 + list.length)).getD
      page.text.length = (closeOffset '\x7b' '\x7d' 0 rest).getD rest.length +
        (2 * name.length + 6 + list.length + 1) := by
    rw [matchingAt?, hdrop, hlength]
    cases closeOffset '\x7b' '\x7d' 0 rest <;> rfl
  have hdestructor : name.startsWith "~" = false := by
    have hmark : ('~' == x) = false := by
      simpa using (ne_of_isWord (hword x (hcons ▸ List.mem_cons_self)) (by decide)).symm
    rw [hcons]
    change ('~' == x && true) = false
    rw [hmark]
    rfl
  let d : Definition :=
    { head := [], owner := name, name := name,
      parameters := page.text.slice (2 * name.length + 3) (2 * name.length + 3), isConst := false,
      initializers := list, start := 0, brace := 2 * name.length + 6 + list.length }
  have hstep : takeImplementation page ([], s) (constructorAt name list) =
      ([(s.define page d).1], (s.define page d).2) := by
    rw [takeImplementation, if_neg (by simp [constructorAt, hscope, hs])]
    simp only [hinit]
    rfl
  have hreturn : normalizeType (Text.join " " (headWords [])) = [] := by decide
  refine ⟨_, _, hstep, ?_⟩
  rw [SourceScan.fst_define, SourceScan.spans_define]
  refine ⟨?_, rfl, rfl, ?_, ?_⟩
  · rw [hdestructor, hreturn, beq_self_eq_true]
    rfl
  · rw [hclose, Text.slice, List.drop_take, ← hmasked, hdrop, Nat.add_sub_cancel]
  · rw [hclose]
    exact List.mem_append_right _ (List.mem_singleton_self _)

/-! ### What is taken before it -/

/-- Going on does not lead back. -/
theorem Cursor.le_position_skip (c : Cursor) (n : Nat) : c.position ≤ (c.skip n).position := by
  induction n generalizing c with
  | zero => exact Nat.le_refl _
  | succ n ih =>
      rw [Cursor.skip]
      split
      · exact Nat.le_refl _
      · rename_i x r _
        exact Nat.le_trans (Nat.le_succ _) (ih ⟨c.position + 1, some x, r⟩)

/-- The places from position `n` on. -/
def Track.beyond (n : Nat) : Track where
  holds c := n ≤ c.position
  skip k h := Nat.le_trans h (Cursor.le_position_skip _ k)

/-- Beyond a place, asking for the place gives one that is beyond it. -/
theorem Reader.gives_here_beyond (n : Nat) : here.Gives (Track.beyond n) fun i => n ≤ i := by
  intro c i c' hc hrun
  obtain ⟨rfl, rfl⟩ := Prod.mk.inj (Option.some.inj hrun)
  exact ⟨hc, hc⟩

/-- Beyond a place, an embedded type is found that starts beyond it. -/
theorem gives_embeddedType_beyond (n : Nat) :
    embeddedType.Gives (Track.beyond n) fun span => n ≤ span.1 := by
  refine Reader.gives_lineStart.bind fun _ _ => (Reader.gives_here_beyond n).bind fun _ hstart => ?_
  refine (Reader.gives_many _).bind fun _ _ => ?_
  refine ((Reader.gives_text _).bind fun _ _ => Reader.gives_blanks1).option.bind fun _ _ => ?_
  refine (Reader.gives_oneOf _).bind fun _ _ => Reader.gives_wordEnd.bind fun _ _ => ?_
  refine (Reader.gives_many _).bind fun _ _ => Reader.gives_here.bind fun _ _ => ?_
  exact (Reader.gives_char _).bind fun _ _ => Reader.gives_pure hstart

/-- A name with a scope mark behind it introduces no type. -/
theorem embeddedType_name {name : Text} (hname : isIdentifier name = true)
    (hnested : name ∉ nestedKeywords) (z : Text) :
    embeddedType.run ⟨0, none, name ++ ':' :: z⟩ = none := by
  obtain ⟨x, r, hcons, -, hword⟩ := isIdentifier_cons hname
  have hcolon : isWord ':' = false := by decide
  rw [Option.eq_none_iff_forall_ne_some]
  rintro ⟨a, c'⟩ hrun
  simp only [embeddedType, StateT.run_bind, Option.bind_eq_bind, Option.bind_eq_some_iff] at hrun
  obtain ⟨⟨_, c₁⟩, hline, ⟨_, c₂⟩, hhere, ⟨_, c₃⟩, hspace, ⟨_, c₄⟩, htypedef, ⟨w, c₅⟩, hkeyword,
    ⟨_, c₆⟩, hend, -⟩ := hrun
  obtain ⟨-, rfl⟩ := Prod.mk.inj (Option.some.inj hline)
  obtain ⟨-, rfl⟩ := Prod.mk.inj (Option.some.inj hhere)
  obtain ⟨-, rfl⟩ := Prod.mk.inj (Option.some.inj hspace)
  have hrest : (Cursor.skip ⟨0, none, name ++ ':' :: z⟩
      ((name ++ ':' :: z).takeWhile isSpaceOrTab).length).rest = name ++ ':' :: z := by
    have hx : isSpaceOrTab x = false := by
      simp [isSpaceOrTab, ne_of_isWord (hword x (hcons ▸ List.mem_cons_self))
        (show isWord ' ' = false by decide), ne_of_isWord (hword x (hcons ▸ List.mem_cons_self))
        (show isWord '\t' = false by decide)]
    rw [hcons, List.cons_append, List.takeWhile_cons_of_neg (by simp [hx])]
    rfl
  rw [Reader.option_eq_none (typedef_eq_none hword hcolon (by decide) hrest)] at htypedef
  obtain ⟨-, rfl⟩ := Prod.mk.inj (Option.some.inj htypedef)
  have hstruct : name ∉ [("struct" : Text), "class"] := fun hmem =>
    hnested ((by decide : [("struct" : Text), "class"] ⊆ nestedKeywords) hmem)
  rw [keyword_eq_none hword hcolon (by decide) (forall_mem_mem_of_all (by decide)) hstruct hrest
    hkeyword] at hend
  cases hend

/-- Where a constructor starts, nothing has been taken before. -/
theorem isTaken_scanBefore {text path name z : Text} (hname : isIdentifier name = true)
    (hnested : name ∉ nestedKeywords)
    (hmasked : (SourcePage.ofText text path).masked = name ++ ':' :: z) :
    (scanBefore text path).isTaken 0 = false := by
  have hstart : ∀ span ∈ embeddedType.findAll (SourcePage.ofText text path).masked, 1 ≤ span.1 := by
    obtain ⟨x, r, hcons, -⟩ := isIdentifier_cons hname
    have hnone := embeddedType_name hname hnested z
    rw [hcons, List.cons_append] at hnone
    rw [hmasked, hcons, List.cons_append, Reader.findAll, Reader.findFrom, hnone]
    exact (gives_embeddedType_beyond 1).findFrom (Nat.le_refl 1)
  have hspans : ∀ span ∈ (scanBefore text path).spans, 1 ≤ span.1 := by
    rw [scanBefore]
    refine List.foldlRecOn (motive := fun acc : List TypeDecl × SourceScan =>
      ∀ span ∈ acc.2.spans, 1 ≤ span.1) _ _ ?_ fun acc h span hspan => ?_
    · refine List.foldlRecOn (motive := fun acc : List Constant × SourceScan =>
        ∀ span ∈ acc.2.spans, 1 ≤ span.1) _ _ (by simp) fun acc h span _ => ?_
      rw [takeConstant]
      split <;> exact h
    · rw [takeEmbeddedType]
      dsimp only
      split
      · exact h
      · split
        · exact h
        · exact forall_mem_concat h (hstart span hspan)
  rw [SourceScan.isTaken, List.any_eq_false]
  intro span hspan
  have hspan := hspans span hspan
  simp only [Bool.and_eq_true, decide_eq_true_eq]
  omega

/-! ### What is found behind it -/

/-- In a text, a scoped name is found whose owner starts in the text. -/
theorem gives_scopedName_start (t : Text) :
    scopedName.Gives (Track.inside t) fun m => m.ownerStart < t.length := by
  refine Reader.gives_here_of_needsText t (fun _ => (Reader.needsText_many1 _).bind) fun i hi => ?_
  refine (Reader.gives_many1 _).bind fun _ _ => ?_
  refine Reader.gives_blanks.bind fun _ _ => (Reader.gives_text _).bind fun _ _ => ?_
  refine Reader.gives_blanks.bind fun _ _ => gives_methodIdent.bind fun name hname => ?_
  refine Reader.gives_blanks.bind fun _ _ => Reader.gives_here.bind fun _ _ => ?_
  exact (Reader.gives_char _).bind fun _ _ => Reader.gives_pure hi

/-- A scoped name needs text. -/
theorem needsText_scopedName : scopedName.NeedsText :=
  .here_bind fun _ => (Reader.needsText_many1 _).bind

/-- In a text, an implementation is found that starts in the text. -/
theorem gives_implementation_start (t : Text) :
    implementation.Gives (Track.inside t) fun m => m.start < t.length := by
  refine Reader.gives_lineStart.bind fun _ _ => (Reader.gives_many _).bind fun _ _ => ?_
  refine Reader.gives_here_of_needsText t
    (fun _ => .ahead_bind fun _ => (needsText_scopedName.bind.behind _).bind) fun i hi => ?_
  refine (Reader.gives_ahead _).bind fun _ _ => ?_
  refine Reader.Gives.bind (Reader.Gives.behind (P := fun _ => True) ?_ _) fun p hp => ?_
  · refine gives_scopedName.bind fun target htarget => (Reader.gives_many _).bind fun _ _ => ?_
    refine Reader.gives_here.bind fun _ _ => (Reader.gives_char _).bind fun _ _ => ?_
    exact gives_bodyTail.bind fun _ _ => Reader.gives_pure trivial
  · exact Reader.gives_pure hi

/-- Steps that change nothing, one after the other, change nothing. -/
theorem foldl_eq_self {α β : Type} {f : β → α → β} {b : β} {l : List α}
    (h : ∀ a ∈ l, f b a = b) : l.foldl f b = b := by
  induction l with
  | nil => rfl
  | cons a l ih =>
      rw [List.foldl_cons, h a List.mem_cons_self, ih fun a ha => h a (List.mem_cons_of_mem _ ha)]

section

variable {text path name list rest : Text} (hname : isIdentifier name = true)
  (hnested : name ∉ nestedKeywords) (hlist : ∀ c ∈ list, c ≠ '\x7b' ∧ c ≠ ';')
  (htext : (SourcePage.ofText text path).text = scopedText name list rest)
  (hmasked : (SourcePage.ofText text path).masked = (SourcePage.ofText text path).text)

include hname hnested hlist htext hmasked

/-- **The first implementation that is taken is the constructor.** -/
theorem exists_primaryPass_eq :
    ∃ m s ms, primaryPass text path =
        List.foldl (takeImplementation (SourcePage.ofText text path)) ([m], s) ms ∧
      (∀ k ∈ ms, k.start < (SourcePage.ofText text path).masked.length) ∧
      m.isConstructor = true ∧ m.owner = name ∧ m.initializers = parseInitializers list ∧
      m.body = some (normalizeBlock
        (rest.take ((closeOffset '\x7b' '\x7d' 0 rest).getD rest.length))).1 ∧
      (0, (closeOffset '\x7b' '\x7d' 0 rest).getD rest.length +
        (2 * name.length + 6 + list.length + 1) + 1) ∈ s.spans := by
  obtain ⟨x, r, hcons, -⟩ := isIdentifier_cons hname
  have htaken : (scanBefore text path).isTaken 0 = false :=
    isTaken_scanBefore hname hnested (hmasked.trans htext)
  have hscope : (SourcePage.ofText text path).atFileScope 0 = true := by
    rw [SourcePage.atFileScope, SourcePage.ofText, depthMap]
    cases (Page.ofText text path).masked <;> rfl
  obtain ⟨m, s, hstep, hm⟩ := takeImplementation_constructor hname htext hmasked hscope htaken
  obtain ⟨c, hfound⟩ := implementation_constructor hname hlist rest
  have hall : ∃ ms, implementation.findAll (SourcePage.ofText text path).masked =
      constructorAt name list :: ms := by
    rw [← scopedText, scopedText, hcons, List.cons_append] at hfound
    rw [hmasked, htext, scopedText, hcons, List.cons_append, Reader.findAll, Reader.findFrom,
      hfound]
    exact ⟨_, rfl⟩
  obtain ⟨ms, hms⟩ := hall
  have hbounds := (gives_implementation_start (SourcePage.ofText text path).masked).findAll rfl
  rw [hms] at hbounds
  refine ⟨m, s, ms, ?_, (List.forall_mem_cons.mp hbounds).2, hm⟩
  rw [primaryPass, hms, List.foldl_cons, hstep]

/-- A constructor that takes all of the text is all that is found. -/
theorem exists_passes_eq {block : Text} (hrest : rest = block ++ ['\x7d'])
    (hblock : ClosesBraces block) :
    ∃ m, (primaryPass text path).1 = [m] ∧ (recoveryPass text path).1 = [] ∧
      m.isConstructor = true ∧ m.owner = name ∧ m.initializers = parseInitializers list ∧
      m.body = some (normalizeBlock block).1 := by
  obtain ⟨m, s, ms, hpass, hms, hconstructor, howner, hinits, hbody, hspan⟩ :=
    exists_primaryPass_eq hname hnested hlist htext hmasked
  have hclose : closeOffset '\x7b' '\x7d' 0 rest = some block.length := by
    rw [hrest, hblock]
    simp [closeOffset]
  have hlength : (SourcePage.ofText text path).masked.length =
      block.length + (2 * name.length + 6 + list.length + 1) + 1 := by
    rw [hmasked, htext, scopedText, hrest]
    simp
    omega
  rw [hclose, Option.getD_some] at hbody hspan
  have htaken : ∀ i < (SourcePage.ofText text path).masked.length, s.isTaken i = true := by
    intro i hi
    rw [SourceScan.isTaken, List.any_eq_true]
    refine ⟨_, hspan, ?_⟩
    rw [hlength] at hi
    simpa using hi
  have hprimary : primaryPass text path = ([m], s) := by
    rw [hpass]
    refine foldl_eq_self fun k hk => ?_
    rw [takeImplementation, if_pos (by simp [htaken _ (hms k hk)])]
  have hrecovery : recoveryPass text path = ([], s) := by
    rw [recoveryPass, hprimary]
    refine foldl_eq_self fun k hk => ?_
    have hstart := (gives_scopedName_start (SourcePage.ofText text path).masked).findAll rfl k hk
    rw [recoverImplementation, if_pos (by simp [htaken _ hstart])]
  refine ⟨m, by rw [hprimary], by rw [hrecovery], hconstructor, howner, hinits, ?_⟩
  rw [hbody, hrest, List.take_left]

end

/-- The page of a source file whose only text is a constructor. -/
theorem ofText_constructorText {name block : Text} (hname : isIdentifier name = true)
    (ws : List WrittenInit) (hbare : isBare block = true) (path : Text) :
    let page := SourcePage.ofText (name ++ ("::".toList ++ constructorText name ws block)) path
    page.text = scopedText name (' ' :: (initList ws ++ [' ']))
        (block.normalizeNewlines ++ ['\x7d']) ∧ page.masked = page.text := by
  intro page
  obtain ⟨-, -, -, -, hword⟩ := isIdentifier_cons hname
  have hreturn : '\r' ∉ name := fun hmem => absurd (hword _ hmem) (by decide)
  have htext : page.text = name ++ ("::".toList ++
      constructorText name ws block.normalizeNewlines) := by
    change Text.normalizeNewlines _ = _
    rw [normalizeNewlines_append hreturn, normalizeNewlines_append (by decide),
      normalizeNewlines_constructorText hname]
  have hbare' := isBare_constructorText hname ws (isBare_normalizeNewlines hbare)
  refine ⟨?_, ?_⟩
  · rw [htext]
    simp [constructorText, scopedText]
  · change maskCode page.text = page.text
    rw [htext]
    refine maskCode_of_isBare (isBare_append (isBare_of_isWord hword) ?_ rfl)
    exact isBare_cons_of_ne (by decide) (by decide)
      (isBare_cons_of_ne (by decide) (by decide) hbare')

/-- **A constructor in a source file** is read with its initializers and its body, if there are
neither braces nor semicolons in the initializers. -/
theorem parseSource_constructor {name block : Text} {ws : List WrittenInit}
    (hname : isOwnerName name = true) (hne : ws ≠ []) (hbrace : '\x7b' ∉ initList ws)
    (hsemicolon : ';' ∉ initList ws) (hbare : isBare block = true)
    (hblock : nestedFrom isBrace [] block = true) (path : Text) :
    ∃ m, (parseSource (name ++ ("::".toList ++ constructorText name ws block)) path).1.methods =
        [m] ∧
      m.isConstructor = true ∧ m.owner = name ∧
      m.initializers = ws.map WrittenInit.toInitializer ∧
      m.body = some (normalizeBlock block).1 := by
  obtain ⟨hident, hreserved, -⟩ := isOwnerName_spec hname
  have hnested : name ∉ nestedKeywords := by
    simp only [reservedNames, List.mem_append, not_or] at hreserved
    exact hreserved.1.2
  obtain ⟨htext, hmasked⟩ := ofText_constructorText hident ws hbare path
  have hlist : ∀ c ∈ ' ' :: (initList ws ++ [' ']), c ≠ '\x7b' ∧ c ≠ ';' := by
    intro c hc
    constructor <;> rintro rfl
    · simp [hbrace] at hc
    · simp [hsemicolon] at hc
  have hclosed : ClosesBraces block.normalizeNewlines :=
    closesBraces_of_nested (p := isBrace) (by decide) (by decide)
      (by rw [nestedFrom_normalizeNewlines (by decide) (by decide), hblock])
  obtain ⟨m, hprimary, hrecovery, hconstructor, howner, hinits, hbody⟩ :=
    exists_passes_eq hident hnested hlist htext hmasked rfl hclosed
  have hperm := map_asRead_methods_parseSource
    (name ++ ("::".toList ++ constructorText name ws block)) path
  rw [hprimary, hrecovery] at hperm
  obtain ⟨m', hm', hread⟩ := List.map_eq_singleton_iff.mp (List.perm_singleton.mp hperm)
  rw [parseInitializers_initList hne] at hinits
  rw [normalizeBlock_normalizeNewlines] at hbody
  subst hread
  exact ⟨m', hm', hconstructor, howner, hinits, hbody⟩

end Sharpen
