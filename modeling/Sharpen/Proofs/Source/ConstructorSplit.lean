import Sharpen.Proofs.Header.Initializers
import Sharpen.Proofs.Source.Constructor

/-!
# Telling the Initializers of a Constructor from its Body

A constructor is written with a list of member initializers and a body. In a class the list ends
before the first brace, in a source file before the first brace or semicolon. So an initializer that
is written in braces, or has a brace in its value, ends the list too early, and the constructor is
read with other initializers and another body. All other lists are told from the body.

In both places a list is told from the body just if there is no brace in it, and in a source file no
semicolon either, which a list that is written never has. The statement is about all lists and
blocks, and it compares what is read with what was written. Where it fails, the list is read as a
part of itself and the body as one of the values.

## Main definitions

* `Method.HasPlainList` — the initializers of a method come from a text without braces and
  semicolons.
* `Source.IsConstructor` — a source file is read as one constructor of a class, which has the given
  initializers and body.

## Main results

* `parseSource_constructor_iff` — where a list ends in a source file.
* `constructor_split` — where the two are told apart, in a source file and in a class.
* `hasPlainList_passes` — the initializers of all methods of a source file without comments and
  literals come from texts without braces and semicolons.
* `not_forall_constructor_split` — an initializer in braces is not told from the body.
-/

namespace Sharpen

/-! ### The initializers of a source file -/

/-- What may be missing has its property where it is there. -/
theorem Reader.Gives.option_some {α : Type} {I : Track} {P : α → Prop} {r : Reader α}
    (hr : r.Gives I P) : (Reader.option r).Gives I fun o => ∀ a, o = some a → P a := by
  intro c o c' hc hrun
  cases hfirst : r.run c with
  | none =>
      rw [Reader.option_eq_none hfirst] at hrun
      obtain ⟨rfl, rfl⟩ := Prod.mk.inj (Option.some.inj hrun)
      exact ⟨fun _ ha => (nomatch ha), hc⟩
  | some q =>
      have hoption : (Reader.option r).run c = some (some q.1, q.2) := by
        simp [Reader.option, hfirst]
      obtain ⟨rfl, rfl⟩ := Prod.mk.inj (Option.some.inj (hoption.symm.trans hrun))
      obtain ⟨ha, hc'⟩ := hr hc hfirst
      exact ⟨fun a h => Option.some.inj h ▸ ha, hc'⟩

/-- The list of initializers goes up to a brace or a semicolon. -/
theorem gives_bodyTail_initSpan (t : Text) :
    bodyTail.Gives (Track.inside t) fun tail => ∀ span, tail.initSpan = some span →
      ∀ c ∈ t.slice span.1 span.2, (c != '\x7b' && c != ';') = true := by
  refine Reader.gives_blanks.bind fun _ _ => ?_
  refine ((Reader.gives_text _).bind fun _ _ => Reader.gives_wordEnd).present.bind fun _ _ => ?_
  refine Reader.gives_blanks.bind fun _ _ => ?_
  refine Reader.Gives.bind (Reader.Gives.option_some
    (P := fun span => ∀ c ∈ t.slice span.1 span.2, (c != '\x7b' && c != ';') = true) ?_)
    fun _ hspan => ?_
  · refine (Reader.gives_char _).bind fun _ _ => ?_
    exact Reader.gives_span _ t fun _ _ hspan => Reader.gives_pure hspan
  · refine Reader.gives_here.bind fun _ _ => (Reader.gives_char _).bind fun _ _ => ?_
    exact Reader.gives_pure hspan

/-- The initializers of a method come from a text without braces and semicolons. -/
def Method.HasPlainList (m : Method) : Prop :=
  ReadWithout '\x7b' m.initializers ∧ ReadWithout ';' m.initializers

/-- A definition whose list has neither braces nor semicolons gives a method with a plain list. -/
theorem hasPlainList_define {page : SourcePage} (hmasked : page.masked = page.text)
    (s : SourceScan) {d : Definition} {tail : BodyTail} (hd : d.initializers = initText page tail)
    (htail : ∀ span, tail.initSpan = some span →
      ∀ c ∈ page.masked.slice span.1 span.2, (c != '\x7b' && c != ';') = true) :
    (s.define page d).1.HasPlainList := by
  have hinits : (s.define page d).1.initializers = parseInitializers (initText page tail) := by
    rw [SourceScan.fst_define, hd]
  have hfree : ∀ c ∈ initText page tail, c ≠ '\x7b' ∧ c ≠ ';' := by
    intro c hc
    rw [initText] at hc
    cases hspan : tail.initSpan with
    | none => simp [hspan] at hc
    | some span =>
        rw [hspan, Option.map_some, Option.getD_some, ← hmasked] at hc
        simpa using htail span hspan c hc
  rw [Method.HasPlainList, hinits]
  exact ⟨⟨_, fun hmem => (hfree _ hmem).1 rfl, rfl⟩, ⟨_, fun hmem => (hfree _ hmem).2 rfl, rfl⟩⟩

/-- **The initializers of all methods** of a source file without comments and literals come from
texts without braces and semicolons. -/
theorem hasPlainList_passes {text path : Text}
    (hmasked : (SourcePage.ofText text path).masked = (SourcePage.ofText text path).text) :
    ∀ m ∈ addUnseen (primaryPass text path).1 (recoveryPass text path).1, m.HasPlainList := by
  refine Readable.forall_mem_addUnseen ?_ ?_
  · refine List.foldlRecOn (motive := fun acc : List Method × SourceScan =>
      ∀ m ∈ acc.1, m.HasPlainList) _ _ (by simp) fun acc h m hm => ?_
    obtain heq | ⟨d, tail, hd, htail, heq⟩ :=
      takeImplementation_cases acc hm (gives_bodyTail_initSpan _)
    · exact heq.symm ▸ h
    · rw [heq]
      exact forall_mem_concat h (hasPlainList_define hmasked acc.2 hd.initializers htail)
  · refine List.foldlRecOn (motive := fun acc : List Method × SourceScan =>
      ∀ m ∈ acc.1, m.HasPlainList) _ _ (by simp) fun acc h m hm => ?_
    obtain heq | ⟨d, tail, hd, htail, heq⟩ :=
      recoverImplementation_cases acc hm (gives_bodyTail_initSpan _)
    · exact heq.symm ▸ h
    · rw [heq]
      exact forall_mem_concat h (hasPlainList_define hmasked acc.2 hd.initializers htail)

/-! ### Where a list ends -/

/-- Methods of the first pass are kept. -/
theorem mem_addUnseen {methods : List Method} {m : Method} (h : m ∈ methods) (more : List Method) :
    m ∈ addUnseen methods more := by
  refine List.foldlRecOn (motive := fun seen : List Method => m ∈ seen) more _ h
    fun seen hseen k _ => ?_
  split
  · exact hseen
  · exact List.mem_append_left _ hseen

/-- A character that is no bracket comes into a list with a value. -/
theorem exists_mem_value {ws : List WrittenInit} {x : Char} (hword : isWord x = false)
    (hbracket : isBracket x = false) (hcomma : x ≠ ',') (hspace : x ≠ ' ')
    (h : x ∈ initList ws) : ∃ w ∈ ws, x ∈ w.value := by
  rcases mem_of_mem_join h with hmem | ⟨t, ht, hmem⟩
  · simp [hcomma, hspace] at hmem
  · obtain ⟨w, hw, rfl⟩ := List.mem_map.mp ht
    refine ⟨w, hw, ?_⟩
    have hopening : x ≠ w.opening := by
      rintro rfl
      rw [w.isBracket_opening] at hbracket
      cases hbracket
    have hclosing : x ≠ w.closing := by
      rintro rfl
      rw [w.isBracket_closing] at hbracket
      cases hbracket
    have hname : x ∉ w.name := fun hmem => by
      rw [w.forall_isWord_name x hmem] at hword
      cases hword
    simpa [WrittenInit.text, hname, hopening, hclosing] using hmem

/-- The first brace of a list is taken for that of the body. -/
theorem exists_mem_primaryPass {name block : Text} {ws : List WrittenInit}
    (hname : isOwnerName name = true) (hbrace : '\x7b' ∈ initList ws)
    (hsemicolon : ';' ∉ initList ws) (hbare : isBare block = true) (path : Text) :
    ∃ m ∈ (primaryPass (name ++ ("::".toList ++ constructorText name ws block)) path).1,
      m.initializers = parseInitializers (' ' :: listStart ws) := by
  obtain ⟨hident, hreserved, -⟩ := isOwnerName_spec hname
  have hnested : name ∉ nestedKeywords := by
    simp only [reservedNames, List.mem_append, not_or] at hreserved
    exact hreserved.1.2
  obtain ⟨htext, hmasked⟩ := ofText_constructorText hident ws hbare path
  obtain ⟨l, hl⟩ := exists_initList_eq hbrace
  have htext' : (SourcePage.ofText (name ++ ("::".toList ++ constructorText name ws block))
      path).text = scopedText name (' ' :: listStart ws)
        (l ++ ' ' :: '\x7b' :: (block.normalizeNewlines ++ ['\x7d'])) := by
    rw [htext, hl]
    simp [scopedText]
  have hlist : ∀ c ∈ ' ' :: listStart ws, c ≠ '\x7b' ∧ c ≠ ';' := by
    intro c hc
    constructor <;> rintro rfl
    · simp [notMem_listStart] at hc
    · have hmem : ';' ∈ listStart ws := by simpa using hc
      exact hsemicolon ((List.takeWhile_prefix _).subset hmem)
  obtain ⟨m, s, ms, hpass, -, -, -, hinits, -⟩ :=
    exists_primaryPass_eq hident hnested hlist htext' hmasked
  refine ⟨m, ?_, hinits⟩
  rw [hpass]
  refine List.foldlRecOn (motive := fun acc : List Method × SourceScan => m ∈ acc.1) _ _
    (List.mem_singleton_self m) fun acc h k _ => ?_
  rw [takeImplementation]
  split
  · exact h
  · exact List.mem_append_left _ h

/-- A source file is read as one constructor of a class, which has the given initializers and
body. -/
def Source.IsConstructor (source : Source) (name : Text) (inits : List Initializer) (body : Text) :
    Prop :=
  ∃ m, source.methods = [m] ∧ m.isConstructor = true ∧ m.owner = name ∧ m.initializers = inits ∧
    m.body = some body

/-- **Where a list ends in a source file**: a constructor is read with its initializers and its body
if and only if there are neither braces nor semicolons in the initializers. -/
theorem parseSource_constructor_iff {name block : Text} {ws : List WrittenInit}
    (hname : isOwnerName name = true) (hne : ws ≠ []) (hbare : isBare block = true)
    (hblock : nestedFrom isBrace [] block = true) (path : Text) :
    (parseSource (name ++ ("::".toList ++ constructorText name ws block)) path).1.IsConstructor name
      (ws.map WrittenInit.toInitializer) (normalizeBlock block).1 ↔
        '\x7b' ∉ initList ws ∧ ';' ∉ initList ws := by
  constructor
  · rintro ⟨m, hmethods, -, -, hinits, -⟩
    have hperm := map_asRead_methods_parseSource
      (name ++ ("::".toList ++ constructorText name ws block)) path
    rw [hmethods, List.map_singleton] at hperm
    have hall := (List.singleton_perm.mp hperm).symm
    have hplain := hasPlainList_passes (ofText_constructorText (isOwnerName_spec hname).1 ws hbare
      path).2
    rw [hall] at hplain
    obtain ⟨hbraces, hsemicolons⟩ := hplain _ (List.mem_singleton_self _)
    have hvalues : ∀ w ∈ ws, '\x7b' ∉ w.value ∧ ';' ∉ w.value := by
      intro w hw
      have hmem : w.toInitializer ∈ m.asRead.initializers := by
        change w.toInitializer ∈ m.initializers
        rw [hinits]
        exact List.mem_map_of_mem hw
      exact ⟨hbraces.notMem_value (by decide) hmem, hsemicolons.notMem_value (by decide) hmem⟩
    have hsemicolon : ';' ∉ initList ws := by
      intro hmem
      obtain ⟨w, hw, hvalue⟩ :=
        exists_mem_value (by decide) (by decide) (by decide) (by decide) hmem
      exact (hvalues w hw).2 hvalue
    refine ⟨fun hbrace => ?_, hsemicolon⟩
    obtain ⟨k, hk, hkinits⟩ := exists_mem_primaryPass hname hbrace hsemicolon hbare path
    have hmem : k ∈ [m.asRead] := by
      rw [← hall]
      exact mem_addUnseen hk _
    rw [List.mem_singleton.mp hmem] at hkinits
    exact parseInitializers_ne_of_codeLength_lt hne (codeLength_listStart_lt hbrace)
      (hkinits.symm.trans hinits)
  · rintro ⟨hbrace, hsemicolon⟩
    exact parseSource_constructor hname hne hbrace hsemicolon hbare hblock path

/-- **Where the initializers of a constructor are told from its body**: in a source file, if there
are neither braces nor semicolons in the initializers, and in a class, if there are no braces in
them. -/
theorem constructor_split (name block : Text) (ws : List WrittenInit)
    (hname : isOwnerName name = true) (hne : ws ≠ []) (hbare : isBare block = true)
    (hblock : nestedFrom isBrace [] block = true) (path : Text) :
    ((parseSource (name ++ ("::".toList ++ constructorText name ws block)) path).1.IsConstructor
        name (ws.map WrittenInit.toInitializer) (normalizeBlock block).1 ↔
      '\x7b' ∉ initList ws ∧ ';' ∉ initList ws) ∧
    ((parseHeader (classText name (constructorText name ws block)) path).1.IsConstructor
        name (ws.map WrittenInit.toInitializer) (normalizeBlock block).1 ↔
      '\x7b' ∉ initList ws) :=
  ⟨parseSource_constructor_iff hname hne hbare hblock path,
    parseHeader_constructor_iff hname hne hbare hblock path⟩

/-- The initializer `size(1)`. -/
def sizeInit : WrittenInit where
  name := "size"
  value := "1"
  braced := false
  name_isIdentifier := by decide
  value_isNested := by decide
  value_isBare := by decide
  value_isNormal := by decide

/-- The initializer `side{2}`. -/
def sideInit : WrittenInit where
  name := "side"
  value := "2"
  braced := true
  name_isIdentifier := by decide
  value_isNested := by decide
  value_isBare := by decide
  value_isNormal := by decide

/-- A constructor with an initializer in parentheses is read as it is written. -/
theorem constructor_split_parentheses :
    (parseSource "Shape::Shape() : size(1) \x7b run(); \x7d" "Shape.cpp").1.IsConstructor "Shape"
      [⟨"size", "1"⟩] "run();" ∧
    (parseHeader "class Shape \x7b Shape() : size(1) \x7b run(); \x7d \x7d;"
      "Shape.h").1.IsConstructor "Shape" [⟨"size", "1"⟩] "run();" := by
  have hsource := constructor_split "Shape" " run(); " [sizeInit] (by decide) (by decide)
    (by decide) (by decide) "Shape.cpp"
  have hheader := constructor_split "Shape" " run(); " [sizeInit] (by decide) (by decide)
    (by decide) (by decide) "Shape.h"
  exact ⟨hsource.1.mpr (by decide), hheader.2.mpr (by decide)⟩

/-- **An initializer in braces is not told from the body.** -/
theorem not_forall_constructor_split :
    ¬ ∀ (name block path : Text) (ws : List WrittenInit), isOwnerName name = true → ws ≠ [] →
      isBare block = true → nestedFrom isBrace [] block = true →
      (parseSource (name ++ ("::".toList ++ constructorText name ws block)) path).1.IsConstructor
        name (ws.map WrittenInit.toInitializer) (normalizeBlock block).1 ∧
      (parseHeader (classText name (constructorText name ws block)) path).1.IsConstructor
        name (ws.map WrittenInit.toInitializer) (normalizeBlock block).1 := by
  intro h
  have hread := h "Shape" " run(); " "Shape.cpp" [sizeInit, sideInit] (by decide) (by decide)
    (by decide) (by decide)
  have hbrace := (parseSource_constructor_iff (by decide) (by decide) (by decide) (by decide)
    "Shape.cpp").mp hread.1
  exact hbrace.1 (by decide)

end Sharpen
