import Sharpen.CSharp.Expression
import Sharpen.Proofs.Source.Reads

/-!
# Text Macros

A text macro is an underscore, perhaps a `T`, and a literal in parentheses. Whether a text is one
does not depend on what follows it, and on what stands before it only in that this must be no word.
So text macros are taken off part by part, wherever none of them goes over the end of a part.

The search for text macros goes from left to right and on behind each macro that it finds.
`TakesOff` says the same as a relation on the text, with one rule for a macro, one for any other
character and one for the end. The relation holds for one result only and is shown to be what the
search computes; what is proved of text macros is proved by induction on the relation.

## Main definitions

* `IsTextMacro` — a text macro; `run_textMacro` and `isTextMacro_of_run` say that the reader reads
  these and nothing else.
* `textMacrosIn` — the text macros that are found in a text.
* `takeOff` — the text without them; `TakesOff` relates it and its text macros to the text, and
  `TakesOff.append` takes them off part by part.
* `literalInside` — the reader of the inside of a literal, which may go over several lines.
* `textMacroHere` — the reader of text macros without a look at what stands before.
-/

namespace Sharpen

/-! ### Literals -/

section

variable {oneLine : Bool} {q : Char} {t u r : Text}

/-- A literal goes up to its quote, whatever follows. -/
theorem literalRest?_append (h : literalRest? oneLine q u = some r) (v : Text) :
    literalRest? oneLine q (u ++ v) = some (r ++ v) := by
  fun_induction literalRest? oneLine q u with
  | case1 => cases h
  | case2 c hc =>
      obtain rfl := Option.some.inj h
      cases v <;> simp_all [literalRest?]
  | case3 c hc => cases h
  | case4 c d t hc =>
      obtain rfl := Option.some.inj h
      simp [literalRest?, hc]
  | case5 c d t hc hb hd => cases h
  | case6 c d t hc hb hd ih => simp_all [literalRest?]
  | case7 c d t hc hb ho => cases h
  | case8 c d t hc hb ho ih =>
      rw [List.cons_append, List.cons_append, literalRest?, if_neg hc, if_neg hb, if_neg ho]
      exact ih h

/-- What is left behind a literal is left behind its quote. -/
theorem exists_of_literalRest? (h : literalRest? oneLine q t = some r) :
    ∃ u, t = u ++ q :: r ∧ literalRest? oneLine q (u ++ [q]) = some [] := by
  fun_induction literalRest? oneLine q t with
  | case1 => cases h
  | case2 c hc =>
      obtain rfl := Option.some.inj h
      obtain rfl : c = q := by simpa using hc
      exact ⟨[], rfl, by simp [literalRest?]⟩
  | case3 c hc => cases h
  | case4 c d t hc =>
      obtain rfl := Option.some.inj h
      obtain rfl : c = q := by simpa using hc
      exact ⟨[], rfl, by simp [literalRest?]⟩
  | case5 c d t hc hb hd => cases h
  | case6 c d t hc hb hd ih =>
      obtain ⟨u, rfl, hu⟩ := ih h
      refine ⟨c :: d :: u, rfl, ?_⟩
      rw [List.cons_append, List.cons_append, literalRest?, if_neg hc, if_pos hb, if_neg hd, hu]
  | case7 c d t hc hb ho => cases h
  | case8 c d t hc hb ho ih =>
      obtain ⟨u, hu, hclosed⟩ := ih h
      refine ⟨c :: u, congrArg (c :: ·) hu, ?_⟩
      cases u with
      | nil => simp_all [literalRest?]
      | cons x u =>
          rw [List.cons_append, List.cons_append, literalRest?, if_neg hc, if_neg hb, if_neg ho]
          exact hclosed

end

/-! ### What a text macro is -/

/-- **A text macro**: an underscore, perhaps a `T`, and a literal in parentheses, perhaps with
blanks around it. -/
def IsTextMacro (m literal : Text) : Prop :=
  ∃ (w b₁ b₂ inside : Text) (q : Char), (w = [] ∨ w = ['T']) ∧ b₁.isBlank = true ∧
    b₂.isBlank = true ∧ isQuote q = true ∧ literalRest? false q (inside ++ [q]) = some [] ∧
    literal = q :: (inside ++ [q]) ∧
    m = '_' :: (w ++ '(' :: (b₁ ++ (literal ++ (b₂ ++ [')']))))

/-- A quote is not blank. -/
theorem isBlank_eq_false_of_isQuote {q : Char} (h : isQuote q = true) : isBlank q = false := by
  simp only [isQuote, Bool.or_eq_true, beq_iff_eq] at h
  rcases h with rfl | rfl <;> decide

/-- Characters that are no part of a comment or literal, and no backslash. -/
def isUnmarked (c : Char) : Bool :=
  !isQuote c && c != '/' && c != '\\'

/-- A blank is no mark of a macro. -/
theorem isUnmarked_of_isBlank {c : Char} (h : isBlank c = true) : isUnmarked c = true := by
  by_contra hplain
  have hc : c = '"' ∨ c = '\'' ∨ c = '/' ∨ c = '\\' := by
    by_contra hne
    simp only [not_or] at hne
    exact hplain (by simp [isUnmarked, isQuote, hne])
  rcases hc with rfl | rfl | rfl | rfl <;> exact absurd h (by decide)

/-- What stands around the literal of a text macro. -/
theorem IsTextMacro.exists_split {m literal : Text} (h : IsTextMacro m literal) :
    ∃ (before behind inside : Text) (q : Char), m = before ++ (literal ++ behind) ∧
      literal = q :: (inside ++ [q]) ∧ isQuote q = true ∧
      literalRest? false q (inside ++ [q]) = some [] ∧ before ≠ [] ∧
      (∀ c ∈ before, isUnmarked c = true) ∧ ∀ c ∈ behind, isUnmarked c = true := by
  obtain ⟨w, b₁, b₂, inside, q, hw, hb₁, hb₂, hq, hclosed, rfl, rfl⟩ := h
  have hblank : ∀ b : Text, b.isBlank = true → ∀ c ∈ b, isUnmarked c = true := fun b hb c hc =>
    isUnmarked_of_isBlank (List.all_eq_true.mp hb c hc)
  refine ⟨'_' :: (w ++ '(' :: b₁), b₂ ++ [')'], inside, q, by simp, rfl, hq, hclosed,
    List.cons_ne_nil _ _, ?_, ?_⟩
  · have hword : ∀ c ∈ w, isUnmarked c = true :=
      List.all_eq_true.mp (by rcases hw with rfl | rfl <;> decide)
    simp only [List.forall_mem_cons, List.forall_mem_append]
    exact ⟨by decide, hword, by decide, hblank b₁ hb₁⟩
  · simp only [List.forall_mem_append, List.forall_mem_singleton]
    exact ⟨hblank b₂ hb₂, by decide⟩

namespace Reader

/-- A character that fits is read. -/
theorem reads_satisfy {p : Char → Bool} {x : Char} (hx : p x = true) {i : Nat} {t : Text} :
    (satisfy p).Reads i (x :: t) x (i + 1) t := by
  intro c hposition hrest
  refine ⟨⟨c.position + 1, some x, t⟩, ?_, by rw [hposition], rfl⟩
  simp [satisfy, StateT.run, hrest, hx]

end Reader

/-- The reader of the inside of a literal, which may go over several lines. -/
def literalInside (q : Char) : Reader Text := fun c =>
  (literalRest? false q c.rest).map fun rest =>
    let n := c.rest.length - rest.length
    (c.rest.take n, c.skip n)

/-- What is up to the closing quote of a literal is read with the quote. -/
theorem reads_literalInside {q : Char} {u : Text} (h : literalRest? false q u = some [])
    {i : Nat} {r : Text} : (literalInside q).Reads i (u ++ r) u (i + u.length) r := by
  intro c hposition hrest
  have hleft : literalRest? false q (u ++ r) = some r := literalRest?_append h r
  refine ⟨c.skip u.length, ?_, ?_, ?_⟩
  · simp [StateT.run, literalInside, hrest, hleft]
  · rw [Cursor.position_skip (by simp [hrest]), hposition]
  · rw [Cursor.rest_skip, hrest, List.drop_left]

/-- The reader of text macros without a look at what stands before. -/
def textMacroHere : Reader Text := do
  Reader.char '_'
  let _ ← Reader.option (Reader.char 'T')
  Reader.char '('
  Reader.blanks
  let q ← Reader.satisfy isQuote
  let inside ← literalInside q
  Reader.blanks
  Reader.char ')'
  pure (q :: inside)

/-- A macro starts at the start of a word, and is read from there. -/
theorem textMacro_eq : textMacro = (do Reader.wordStart; textMacroHere) :=
  rfl

/-- A macro with a literal is read to its end, and the literal is what is found. -/
theorem reads_textMacroHere {m literal : Text} (h : IsTextMacro m literal) {i : Nat} {r : Text} :
    textMacroHere.Reads i (m ++ r) literal (i + m.length) r := by
  obtain ⟨w, b₁, b₂, inside, q, hw, hb₁, hb₂, hq, hclosed, rfl, rfl⟩ := h
  have hword : ∀ u, ∃ a, (Reader.option (Reader.char 'T')).Reads (i + 1) (w ++ '(' :: u) a
      (i + 1 + w.length) ('(' :: u) := by
    intro u
    rcases hw with rfl | rfl
    · refine ⟨none, Reader.reads_option_none fun c hc => ?_⟩
      simp [Reader.char, Reader.satisfy, bind, StateT.run, StateT.bind, hc]
    · exact ⟨some (), (Reader.reads_char 'T').option⟩
  obtain ⟨a, hword⟩ := hword (b₁ ++ (q :: (inside ++ [q] ++ (b₂ ++ ')' :: r))))
  have hquote : (q :: (inside ++ [q] ++ (b₂ ++ ')' :: r))).head?.any isBlank = false :=
    isBlank_eq_false_of_isQuote hq
  have hbracket : (')' :: r).head?.any isBlank = false := show isBlank ')' = false by decide
  have hreads : textMacroHere.Reads i
      ('_' :: (w ++ '(' :: (b₁ ++ (q :: (inside ++ [q] ++ (b₂ ++ ')' :: r))))))
      (q :: (inside ++ [q]))
      (i + 1 + w.length + 1 + b₁.length + 1 + (inside ++ [q]).length + b₂.length + 1) r := by
    refine (Reader.reads_char '_').bind (hword.bind ((Reader.reads_char '(').bind ?_))
    refine (Reader.reads_blanks b₁ hb₁ hquote).bind ((Reader.reads_satisfy hq).bind ?_)
    refine (reads_literalInside hclosed).bind ((Reader.reads_blanks b₂ hb₂ hbracket).bind ?_)
    exact (Reader.reads_char ')').bind (Reader.reads_pure _)
  convert hreads using 1
  · simp
  · simp only [List.length_cons, List.length_append, List.length_nil]
    omega

/-- **A text macro is read wherever no word stands before it.** -/
theorem run_textMacro {m literal r : Text} (h : IsTextMacro m literal) {c : Cursor}
    (hbefore : c.before.any isWord = false) (hrest : c.rest = m ++ r) :
    ∃ c', textMacro.run c = some (literal, c') ∧ c'.position = c.position + m.length ∧
      c'.rest = r := by
  obtain ⟨c', hrun, hend⟩ := reads_textMacroHere h (r := r) rfl hrest
  refine ⟨c', ?_, hend⟩
  have hstart : Reader.wordStart.run c = some ((), c) := by
    simp [StateT.run, Reader.wordStart, hbefore]
  rw [textMacro_eq, StateT.run_bind, hstart]
  exact hrun

/-! ### What is read is one -/

/-- From one place of a text to the place behind the text `u`. -/
structure Cursor.Passes (c : Cursor) (u : Text) (c' : Cursor) : Prop where
  rest : c.rest = u ++ c'.rest
  position : c'.position = c.position + u.length

namespace Cursor.Passes

variable {c c' c'' : Cursor} {u v : Text}

/-- Passing a text and then another is passing both. -/
theorem trans (h : c.Passes u c') (h' : c'.Passes v c'') : c.Passes (u ++ v) c'' := by
  refine ⟨by rw [h.rest, h'.rest, List.append_assoc], ?_⟩
  rw [h'.position, h.position, List.length_append, Nat.add_assoc]

/-- Skipping the characters of a text that is next passes it. -/
theorem skip (h : c.rest = u ++ v) : c.Passes u (c.skip u.length) := by
  refine ⟨?_, Cursor.position_skip (by simp [h])⟩
  rw [Cursor.rest_skip, h, List.drop_left]

/-- Reading a character passes that character, and it fits. -/
theorem satisfy {p : Char → Bool} {x : Char} (h : (Reader.satisfy p).run c = some (x, c')) :
    p x = true ∧ c.Passes [x] c' := by
  rw [StateT.run, Reader.satisfy] at h
  split at h
  · cases h
  · rename_i y r hrest
    split at h
    · rename_i hy
      obtain ⟨rfl, rfl⟩ := Prod.mk.inj (Option.some.inj h)
      exact ⟨hy, hrest, rfl⟩
    · cases h

/-- Reading a certain character passes it. -/
theorem char {x : Char} {a : Unit} (h : (Reader.char x).run c = some (a, c')) :
    c.Passes [x] c' := by
  simp only [Reader.char, StateT.run_bind, Option.bind_eq_bind, Option.bind_eq_some_iff] at h
  obtain ⟨⟨y, c₁⟩, hread, hpure⟩ := h
  obtain ⟨-, rfl⟩ := Prod.mk.inj (Option.some.inj hpure)
  obtain ⟨hy, hpasses⟩ := satisfy hread
  obtain rfl : y = x := by simpa using hy
  exact hpasses

/-- Reading a character that may be missing passes it or nothing. -/
theorem optionChar {x : Char} {a : Option Unit}
    (h : (Reader.option (Reader.char x)).run c = some (a, c')) :
    ∃ w, (w = [] ∨ w = [x]) ∧ c.Passes w c' := by
  cases hrun : (Reader.char x).run c with
  | none =>
      rw [Reader.option_eq_none hrun] at h
      obtain ⟨-, rfl⟩ := Prod.mk.inj (Option.some.inj h)
      exact ⟨[], Or.inl rfl, rfl, rfl⟩
  | some p =>
      have hoption : (Reader.option (Reader.char x)).run c = some (some p.1, p.2) := by
        simp [Reader.option, hrun]
      obtain ⟨-, rfl⟩ := Prod.mk.inj (Option.some.inj (hoption.symm.trans h))
      exact ⟨[x], Or.inr rfl, char hrun⟩

/-- Reading blanks passes a blank text. -/
theorem blanks {a : Unit} (h : Reader.blanks.run c = some (a, c')) :
    ∃ b : Text, b.isBlank = true ∧ c.Passes b c' := by
  obtain ⟨-, rfl⟩ := Prod.mk.inj (Option.some.inj h)
  exact ⟨c.rest.takeWhile isBlank, List.all_takeWhile,
    skip List.takeWhile_append_dropWhile.symm⟩

/-- Reading a literal up to its end passes a text that ends with the closing quote and closes the
literal nowhere before. -/
theorem literalInside {q : Char} {u : Text}
    (h : (Sharpen.literalInside q).run c = some (u, c')) :
    ∃ v, u = v ++ [q] ∧ literalRest? false q u = some [] ∧ c.Passes u c' := by
  obtain ⟨r, hrest, heq⟩ := Option.map_eq_some_iff.mp h
  obtain ⟨rfl, rfl⟩ := Prod.mk.inj heq
  obtain ⟨v, hv, hclosed⟩ := exists_of_literalRest? hrest
  have hwhole : c.rest = (v ++ [q]) ++ r := by simp [hv]
  have hlength : c.rest.length - r.length = (v ++ [q]).length := by
    rw [hwhole, List.length_append]
    omega
  rw [hlength, show c.rest.take (v ++ [q]).length = v ++ [q] by rw [hwhole, List.take_left]]
  exact ⟨v, rfl, hclosed, skip hwhole⟩

end Cursor.Passes

/-- **What is read is a text macro**, and no word stands before it. -/
theorem isTextMacro_of_run {c c' : Cursor} {literal : Text}
    (h : textMacro.run c = some (literal, c')) :
    c.before.any isWord = false ∧ ∃ m, IsTextMacro m literal ∧ c.Passes m c' := by
  rw [textMacro_eq, textMacroHere] at h
  simp only [StateT.run_bind, Option.bind_eq_bind, Option.bind_eq_some_iff] at h
  obtain ⟨⟨_, c₀⟩, hstart, ⟨_, c₁⟩, h₁, ⟨_, c₂⟩, h₂, ⟨_, c₃⟩, h₃, ⟨_, c₄⟩, h₄, ⟨q, c₅⟩, h₅,
    ⟨u, c₆⟩, h₆, ⟨_, c₇⟩, h₇, ⟨_, c₈⟩, h₈, hpure⟩ := h
  obtain ⟨rfl, rfl⟩ := Prod.mk.inj (Option.some.inj hpure)
  have hbefore : c.before.any isWord = false ∧ c₀ = c := by
    simp only [StateT.run, Reader.wordStart] at hstart
    split at hstart
    · cases hstart
    · rename_i hbefore
      exact ⟨by simpa using hbefore, (Prod.mk.inj (Option.some.inj hstart)).2.symm⟩
  obtain ⟨hbefore, rfl⟩ := hbefore
  obtain ⟨w, hw, hpass₂⟩ := Cursor.Passes.optionChar h₂
  obtain ⟨b₁, hb₁, hpass₄⟩ := Cursor.Passes.blanks h₄
  obtain ⟨hq, hpass₅⟩ := Cursor.Passes.satisfy h₅
  obtain ⟨inside, rfl, hclosed, hpass₆⟩ := Cursor.Passes.literalInside h₆
  obtain ⟨b₂, hb₂, hpass₇⟩ := Cursor.Passes.blanks h₇
  refine ⟨hbefore, _, ⟨w, b₁, b₂, inside, q, hw, hb₁, hb₂, hq, hclosed, rfl, rfl⟩, ?_⟩
  have hpasses := (Cursor.Passes.char h₁).trans <| hpass₂.trans <|
    (Cursor.Passes.char h₃).trans <| hpass₄.trans <| hpass₅.trans <| hpass₆.trans <|
    hpass₇.trans <| Cursor.Passes.char h₈
  simpa using hpasses

/-! ### All text macros of a text -/

/-- Reads a text macro and gives the text from its start and the text behind it. -/
def macroPlace : Reader (Text × Text) := do
  let c ← get
  let _ ← textMacro
  let c' ← get
  pure (c.rest, c'.rest)

/-- **The text macros that are found in a text**, each as the text from its start and the text
behind it. -/
def textMacrosIn (t : Text) : List (Text × Text) :=
  macroPlace.findAll t

/-- The text macros that are found in the text behind a character. -/
def macrosFrom (before : Option Char) (t : Text) : List (Text × Text) :=
  macroPlace.findFrom 0 0 before t

/-- The text behind a character without its text macros: only their literals are left. -/
def takeOff (before : Option Char) (t : Text) : Text :=
  textMacro.replaceFrom id 0 before t

/-- Behind the given character, the text starts with a text macro. -/
def StartsMacro (before : Option Char) (t : Text) : Prop :=
  before.any isWord = false ∧ ∃ m literal, IsTextMacro m literal ∧ m <+: t

/-- A macro starts with an underscore and ends with a parenthesis. -/
theorem IsTextMacro.exists_eq {m literal : Text} (h : IsTextMacro m literal) :
    ∃ v, m = '_' :: (v ++ [')']) := by
  obtain ⟨w, b₁, b₂, inside, q, -, -, -, -, -, rfl, rfl⟩ := h
  exact ⟨w ++ '(' :: (b₁ ++ (q :: (inside ++ [q]) ++ b₂)), by simp⟩

/-- The literal in a macro is shorter than the macro. -/
theorem IsTextMacro.length_lt {m literal : Text} (h : IsTextMacro m literal) :
    literal.length < m.length := by
  obtain ⟨before, behind, _, _, rfl, -, -, -, hne, -⟩ := h.exists_split
  have hpos := List.length_pos_iff.mpr hne
  simp only [List.length_append]
  omega

/-- The last character of a text, or the one before it. -/
theorem getLast?_cons_or (x : Char) (u : Text) (before : Option Char) :
    (x :: u).getLast?.or before = u.getLast?.or (some x) := by
  rw [List.getLast?_cons]
  cases u.getLast? <;> rfl

/-- Behind a macro, the character in front of a text is a parenthesis. -/
theorem IsTextMacro.getLast?_append_or {m literal : Text} (h : IsTextMacro m literal) (u : Text)
    (before : Option Char) : (m ++ u).getLast?.or before = u.getLast?.or (some ')') := by
  obtain ⟨v, rfl⟩ := h.exists_eq
  rw [List.getLast?_append, List.getLast?_cons, List.getLast?_concat]
  cases u.getLast? <;> rfl

namespace Reader

variable {α : Type} {r : Reader α}

/-- Characters that belong to the match before are passed over. -/
theorem replaceFrom_skip (new : α → Text) (u v : Text) (before : Option Char) :
    replaceFrom r new u.length before (u ++ v) = replaceFrom r new 0 (u.getLast?.or before) v := by
  induction u generalizing before with
  | nil => rfl
  | cons x u ih =>
      rw [List.length_cons, List.cons_append, replaceFrom, ih, getLast?_cons_or]

/-- Looking on in the rest of a match is looking on behind it. -/
theorem findFrom_skip (u v : Text) (position : Nat) (before : Option Char) :
    findFrom r u.length position before (u ++ v)
      = findFrom r 0 (position + u.length) (u.getLast?.or before) v := by
  induction u generalizing position before with
  | nil => rfl
  | cons x u ih =>
      rw [List.length_cons, List.cons_append, findFrom, ih, getLast?_cons_or, Nat.add_assoc,
        Nat.add_comm 1]

end Reader

section

variable {before : Option Char} {t : Text}

/-- Where no macro starts none is read. -/
theorem run_textMacro_eq_none (h : ¬ StartsMacro before t) (position : Nat) :
    textMacro.run ⟨position, before, t⟩ = none := by
  rw [Option.eq_none_iff_forall_ne_some]
  rintro ⟨literal, c'⟩ hrun
  obtain ⟨hbefore, m, hm, hpasses⟩ := isTextMacro_of_run hrun
  exact h ⟨hbefore, m, literal, hm, _, hpasses.rest.symm⟩

/-- The place of a macro is where it starts, with what is left behind it. -/
theorem run_macroPlace (c : Cursor) :
    macroPlace.run c = (textMacro.run c).map fun p => ((c.rest, p.2.rest), p.2) := by
  simp only [macroPlace, StateT.run_bind]
  cases hrun : textMacro.run c <;> simp [hrun]

/-- Where no text macro starts, a character is passed over. -/
theorem takeOff_cons {x : Char} (h : ¬ StartsMacro before (x :: t)) :
    takeOff before (x :: t) = x :: takeOff (some x) t := by
  rw [takeOff, Reader.replaceFrom, run_textMacro_eq_none h]
  rfl

/-- A text macro leaves its literal. -/
theorem takeOff_textMacro {m literal : Text} (hm : IsTextMacro m literal)
    (hbefore : before.any isWord = false) :
    takeOff before (m ++ t) = literal ++ takeOff (some ')') t := by
  obtain ⟨c', hrun, hposition, -⟩ := run_textMacro (c := ⟨0, before, m ++ t⟩) hm hbefore rfl
  obtain ⟨v, rfl⟩ := hm.exists_eq
  have hlength : c'.position = (v ++ [')']).length + 1 := by simpa using hposition
  rw [List.cons_append] at hrun ⊢
  rw [takeOff, Reader.replaceFrom, hrun]
  dsimp only
  rw [if_neg (by omega), hlength, Nat.add_sub_cancel, Reader.replaceFrom_skip,
    List.getLast?_concat]
  rfl

/-- Where no macro starts, the places are those from the next character on. -/
theorem findFrom_macroPlace_cons {x : Char} (h : ¬ StartsMacro before (x :: t)) (position : Nat) :
    macroPlace.findFrom 0 position before (x :: t)
      = macroPlace.findFrom 0 (position + 1) (some x) t := by
  rw [Reader.findFrom, run_macroPlace, run_textMacro_eq_none h]
  rfl

/-- At a macro, the places are this one and those behind it. -/
theorem findFrom_macroPlace_textMacro {m literal : Text} (hm : IsTextMacro m literal)
    (hbefore : before.any isWord = false) (position : Nat) :
    macroPlace.findFrom 0 position before (m ++ t)
      = (m ++ t, t) :: macroPlace.findFrom 0 (position + m.length) (some ')') t := by
  obtain ⟨c', hrun, hposition, hrest⟩ :=
    run_textMacro (c := ⟨position, before, m ++ t⟩) hm hbefore rfl
  obtain ⟨v, rfl⟩ := hm.exists_eq
  have hlength : c'.position - position - 1 = (v ++ [')']).length := by
    dsimp only at hposition
    rw [hposition, List.length_cons]
    omega
  rw [List.cons_append] at hrun ⊢
  rw [Reader.findFrom, run_macroPlace, hrun, Option.map_some]
  dsimp only
  rw [hlength, Reader.findFrom_skip, hrest, List.getLast?_concat, List.length_cons, Nat.add_assoc,
    Nat.add_comm 1]
  rfl

end

/-- **Taking off text macros**, from left to right: what is left, and which are found. -/
inductive TakesOff : Option Char → Text → Text → List (Text × Text) → Prop
  | nil (before : Option Char) : TakesOff before [] [] []
  | pass {before : Option Char} {x : Char} {t u : Text} {ms : List (Text × Text)}
      (h : ¬ StartsMacro before (x :: t)) (hrest : TakesOff (some x) t u ms) :
      TakesOff before (x :: t) (x :: u) ms
  | take {before : Option Char} {m literal t u : Text} {ms : List (Text × Text)}
      (hm : IsTextMacro m literal) (hbefore : before.any isWord = false)
      (hrest : TakesOff (some ')') t u ms) :
      TakesOff before (m ++ t) (literal ++ u) ((m ++ t, t) :: ms)

/-- What is left of a text goes with the places that are found, wherever the search stands. -/
theorem takesOff_findFrom (t : Text) (position : Nat) (before : Option Char) :
    TakesOff before t (takeOff before t) (macroPlace.findFrom 0 position before t) := by
  induction hlength : t.length using Nat.strongRecOn generalizing t position before with
  | ind n ih =>
      by_cases hstart : StartsMacro before t
      · obtain ⟨hbefore, m, literal, hm, r, rfl⟩ := hstart
        rw [takeOff_textMacro hm hbefore, findFrom_macroPlace_textMacro hm hbefore]
        have hlt := hm.length_lt
        have hshort : r.length < n := by
          rw [← hlength, List.length_append]
          omega
        exact .take hm hbefore (ih r.length hshort r _ _ rfl)
      · cases t with
        | nil => exact .nil before
        | cons x r =>
            rw [takeOff_cons hstart, findFrom_macroPlace_cons hstart]
            exact .pass hstart (ih r.length (hlength ▸ Nat.lt_succ_self _) r _ _ rfl)

/-- What is left of a text goes with the macros in it. -/
theorem takesOff (before : Option Char) (t : Text) :
    TakesOff before t (takeOff before t) (macrosFrom before t) :=
  takesOff_findFrom t 0 before

/-- What ends in the first part of a text is a prefix of it. -/
theorem exists_append_of_length_le {u t v r : Text} (h : u ++ t = v ++ r)
    (hle : r.length ≤ t.length) : ∃ w, v = u ++ w ∧ t = w ++ r := by
  rcases List.append_eq_append_iff.mp h with hsplit | ⟨w, rfl, rfl⟩
  · exact hsplit
  · rw [List.length_append] at hle
    obtain rfl : w = [] := List.eq_nil_of_length_eq_zero (by omega)
    exact ⟨[], by simp, rfl⟩

namespace TakesOff

variable {before : Option Char} {t u : Text} {ms : List (Text × Text)}

/-- There is one text that is left and one list of places. -/
theorem unique (h : TakesOff before t u ms) :
    takeOff before t = u ∧ ∀ position, macroPlace.findFrom 0 position before t = ms := by
  induction h with
  | nil before => exact ⟨rfl, fun _ => rfl⟩
  | pass h hrest ih =>
      rw [takeOff_cons h, ih.1]
      exact ⟨rfl, fun position => by rw [findFrom_macroPlace_cons h, ih.2]⟩
  | take hm hbefore hrest ih =>
      rw [takeOff_textMacro hm hbefore, ih.1]
      exact ⟨rfl, fun position => by rw [findFrom_macroPlace_textMacro hm hbefore, ih.2]⟩

/-- They are those that the search has. -/
theorem eq (h : TakesOff before t u ms) : takeOff before t = u ∧ macrosFrom before t = ms :=
  ⟨h.unique.1, h.unique.2 0⟩

/-- What is found are text macros of the text. -/
theorem mem (h : TakesOff before t u ms) :
    ∀ m ∈ ms, m.1 <:+ t ∧ ∃ w literal, IsTextMacro w literal ∧ m.1 = w ++ m.2 := by
  induction h with
  | nil => simp
  | pass h hrest ih => exact fun m hm => ⟨(ih m hm).1.trans (List.suffix_cons _ _), (ih m hm).2⟩
  | take hm _ _ ih =>
      refine List.forall_mem_cons.mpr ⟨⟨List.suffix_refl _, _, _, hm, rfl⟩, fun k hk => ?_⟩
      exact ⟨(ih k hk).1.trans (List.suffix_append _ _), (ih k hk).2⟩

/-- Taking off makes a text shorter, if there is something to take off. -/
theorem length (h : TakesOff before t u ms) : u.length ≤ t.length ∧ (ms = [] ↔ u = t) := by
  induction h with
  | nil => simp
  | pass h hrest ih => simpa using ih
  | take hm hbefore hrest ih =>
      have hshort := Nat.add_lt_add_of_lt_of_le hm.length_lt ih.1
      rw [← List.length_append, ← List.length_append] at hshort
      refine ⟨Nat.le_of_lt hshort, nofun, fun heq => ?_⟩
      rw [heq] at hshort
      exact absurd hshort (Nat.lt_irrefl _)

/-- What stands before a text matters only for what it starts with. -/
theorem congr {before' : Option Char} (h : TakesOff before t u ms)
    (hstarts : StartsMacro before' t ↔ StartsMacro before t) : TakesOff before' t u ms := by
  cases h with
  | nil => exact .nil before'
  | pass hnone hrest => exact .pass (hstarts.not.mpr hnone) hrest
  | take hm hbefore hrest =>
      exact .take hm (hstarts.mpr ⟨hbefore, _, _, hm, List.prefix_append _ _⟩).1 hrest

/-- **Text macros are taken off part by part**, if none that starts in the first part goes over its
end. -/
theorem append (h : TakesOff before t u ms) {v r : Text} (ht : t = v ++ r)
    (hkeep : ∀ m ∈ ms, r.length < m.1.length → r.length ≤ m.2.length) :
    u = takeOff before v ++ takeOff (v.getLast?.or before) r ∧
      ms = (macrosFrom before v).map (fun m => (m.1 ++ r, m.2 ++ r))
        ++ macrosFrom (v.getLast?.or before) r := by
  induction h generalizing v with
  | nil before =>
      obtain ⟨rfl, rfl⟩ := List.append_eq_nil_iff.mp ht.symm
      exact ⟨rfl, rfl⟩
  | @pass before x t u ms hnone hrest ih =>
      cases v with
      | nil =>
          obtain rfl : x :: t = r := ht
          obtain ⟨hu, hms⟩ := (TakesOff.pass hnone hrest).eq
          exact ⟨hu.symm, hms.symm⟩
      | cons y v =>
          obtain ⟨rfl, rfl⟩ := List.cons.inj ht
          obtain ⟨rfl, rfl⟩ := ih rfl hkeep
          have halone : ¬ StartsMacro before (x :: v) := by
            rintro ⟨hbefore, m, literal, hm, hstart⟩
            exact hnone ⟨hbefore, m, literal, hm, hstart.trans (List.prefix_append (x :: v) r)⟩
          obtain ⟨hv, hmacros⟩ := (TakesOff.pass halone (takesOff (some x) v)).eq
          rw [hv, hmacros, getLast?_cons_or]
          exact ⟨rfl, rfl⟩
  | @take before m literal t u ms hm hbefore hrest ih =>
      obtain ⟨hfirst, hothers⟩ := List.forall_mem_cons.mp hkeep
      by_cases hlt : r.length < (m ++ t).length
      · obtain ⟨v, rfl, rfl⟩ := exists_append_of_length_le ht (hfirst hlt)
        obtain ⟨rfl, rfl⟩ := ih rfl hothers
        obtain ⟨hv, hmacros⟩ := (TakesOff.take hm hbefore (takesOff (some ')') v)).eq
        rw [hv, hmacros, hm.getLast?_append_or]
        exact ⟨by simp, by simp⟩
      · obtain rfl : v = [] := by
          rw [ht, List.length_append] at hlt
          exact List.eq_nil_of_length_eq_zero (by omega)
        obtain rfl : m ++ t = r := ht
        obtain ⟨hu, hms⟩ := (TakesOff.take hm hbefore hrest).eq
        exact ⟨hu.symm, hms.symm⟩

end TakesOff

section

variable {before : Option Char} {t : Text}

/-- A text is left as it is exactly when it has no macros. -/
theorem takeOff_eq_self_iff : takeOff before t = t ↔ macrosFrom before t = [] :=
  (takesOff before t).length.2.symm

/-- What stands before a text matters only if it is a word. -/
theorem takeOff_congr {before' : Option Char} (h : before'.any isWord = before.any isWord) :
    takeOff before' t = takeOff before t ∧ macrosFrom before' t = macrosFrom before t :=
  ((takesOff before t).congr (by rw [StartsMacro, StartsMacro, h])).eq

/-- What stands before a text does not matter if the text does not start with an underscore. -/
theorem takeOff_of_head?_ne (h : t.head? ≠ some '_') :
    takeOff before t = takeOff none t ∧ macrosFrom before t = macrosFrom none t := by
  have hnone : ∀ before, ¬ StartsMacro before t := by
    rintro before ⟨-, m, literal, hm, r, rfl⟩
    obtain ⟨v, rfl⟩ := hm.exists_eq
    exact h rfl
  exact ((takesOff none t).congr (iff_of_false (hnone _) (hnone _))).eq

/-- A character that is in no word is passed over. -/
theorem takeOff_cons_of_not_isWord (before : Option Char) {x : Char} (hx : isWord x = false) :
    takeOff before (x :: t) = x :: takeOff none t ∧
      macrosFrom before (x :: t) = macrosFrom none t := by
  have hnone : ¬ StartsMacro before (x :: t) := by
    rintro ⟨-, m, literal, hm, hstart⟩
    obtain ⟨v, rfl⟩ := hm.exists_eq
    obtain rfl := (List.cons_prefix_cons.mp hstart).1
    exact absurd hx (by decide)
  have hafter : (some x).any isWord = Option.any isWord none := hx
  have hpass := (TakesOff.pass hnone (takesOff (some x) t)).eq
  rw [(takeOff_congr hafter).1, (takeOff_congr hafter).2] at hpass
  exact hpass

/-- A word that starts no text macro is passed over. -/
theorem takeOff_word {w : Text} (hw : ∀ c ∈ w, isWord c = true) (ht : t.head? ≠ some '_')
    (hnone : ¬ StartsMacro before (w ++ t)) :
    takeOff before (w ++ t) = w ++ takeOff none t ∧
      macrosFrom before (w ++ t) = macrosFrom none t := by
  induction w generalizing before with
  | nil => exact takeOff_of_head?_ne ht
  | cons x w ih =>
      obtain ⟨hx, hw⟩ := List.forall_mem_cons.mp hw
      have hinside : ¬ StartsMacro (some x) (w ++ t) := fun hstart =>
        Bool.false_ne_true (hstart.1.symm.trans hx)
      obtain ⟨hrest, hmacros⟩ := ih hw hinside
      have hpass := (TakesOff.pass hnone (takesOff (some x) (w ++ t))).eq
      rw [hrest, hmacros] at hpass
      exact hpass

end

end Sharpen
