import Mathlib.Algebra.GroupWithZero.Nat
import Sharpen.Proofs.Code.Nested
import Sharpen.Proofs.Decl.PlainParameter
import Sharpen.Proofs.Header.NextCode
import Sharpen.Proofs.Source.Readings

/-!
# Lists of Member Initializers

A list of member initializers is written `a(1), b{2}`: each member with its value in brackets, and a
comma between two of them. Reading such a list gives back what was written. Reading a part of it
that has lost a bracket does not.

A written initializer has an identifier for its name and a text without brackets, commas and quotes
as its value, in either kind of brackets. Lists of these are what a constructor is given. Counting
the characters that are not blank shows that a part of a list is never read as the list: what is
read has no more of them than the text has.

## Main definitions

* `WrittenInit` — a member initializer as it is written.
* `WrittenInit.text` — the text of an initializer.
* `WrittenInit.toInitializer` — what an initializer says.
* `initList` — the text of a list of initializers.
* `codeLength` — the number of characters of a text that are not blank.

## Main results

* `parseInitializers_initList` — a list that is written is read again.
* `parseInitializers_ne_of_codeLength_lt` — a list that is cut short is read as another one.
* `initializer?_brackets` — a name with a value in brackets is read as an initializer, whatever the
  value is.
* `WrittenInit.initializer?_text` — what is written is read, with blanks around it.
-/

namespace Sharpen

/-- Whether a text is an identifier. -/
def isIdentifier : Text → Bool
  | [] => false
  | c :: r => isIdentStart c && r.all isWord

/-- A member initializer as it is written, in parentheses or in braces. -/
structure WrittenInit where
  name : Text
  value : Text
  braced : Bool
  name_isIdentifier : isIdentifier name = true
  /-- The value closes every bracket that it opens. -/
  value_isNested : nestedFrom isBracket [] value = true
  /-- There are no comments and no literals in it. -/
  value_isBare : isBare value = true
  /-- Its blanks are single spaces between other characters. -/
  value_isNormal : value.normalizeBlanks = value

/-- An identifier has a first character that may start one, and words in it throughout. -/
theorem isIdentifier_cons {t : Text} (h : isIdentifier t = true) :
    ∃ c r, t = c :: r ∧ isIdentStart c = true ∧ ∀ x ∈ t, isWord x = true := by
  cases t with
  | nil => cases h
  | cons c r =>
      rw [isIdentifier, Bool.and_eq_true, List.all_eq_true] at h
      refine ⟨c, r, rfl, h.1, fun x hx => ?_⟩
      rcases List.mem_cons.mp hx with rfl | hx
      · exact isWord_of_isIdentStart h.1
      · exact h.2 x hx

/-- An identifier is a name, as any row of word characters and colons. -/
theorem isQualifiedChar_of_isIdentifier {t : Text} (h : isIdentifier t = true) :
    t ≠ [] ∧ ∀ c ∈ t, isQualifiedChar c = true := by
  obtain ⟨x, r, hcons, -, hword⟩ := isIdentifier_cons h
  exact ⟨by simp [hcons], fun c hc => by simp [isQualifiedChar, hword c hc]⟩

/-- No character of a qualified name is blank. -/
theorem isBlank_eq_false_of_isQualifiedChar {c : Char} (h : isQualifiedChar c = true) :
    isBlank c = false := by
  rcases Bool.or_eq_true_iff.mp h with h | h
  · exact isBlank_eq_false_of_isWord h
  · obtain rfl := beq_iff_eq.mp h
    decide

/-- **A name with a value in brackets** is read as an initializer, whatever the value is. -/
theorem initializer?_brackets {name : Text} (hne : name ≠ [])
    (hname : ∀ c ∈ name, isQualifiedChar c = true) {opn close : Char}
    (hbrackets : opn = '(' ∧ close = ')' ∨ opn = '\x7b' ∧ close = '\x7d') (value : Text)
    {gap gap' : Text} (hgap : gap.isBlank = true) (hgap' : gap'.isBlank = true) :
    initializer? (gap ++ (name ++ opn :: (value ++ [close])) ++ gap') =
      some ⟨name, value.normalizeBlanks⟩ := by
  obtain ⟨x, r, hcons⟩ := List.exists_cons_of_ne_nil hne
  have hopn : isBlank opn = false ∧ isQualifiedChar opn = false ∧
      (opn == '(' || opn == '\x7b') = true := by
    rcases hbrackets with ⟨rfl, -⟩ | ⟨rfl, -⟩ <;> decide
  have hclose : isBlank close = false ∧
      (some close == some ')' || some close == some '\x7d') = true := by
    rcases hbrackets with ⟨-, rfl⟩ | ⟨-, rfl⟩ <;> decide
  have htrim : Text.trim (name ++ opn :: (value ++ [close])) =
      name ++ opn :: (value ++ [close]) := by
    refine Text.trim_eq_self_iff.mpr ⟨?_, ?_⟩
    · have hx := isBlank_eq_false_of_isQualifiedChar (hname x (hcons ▸ List.mem_cons_self))
      rw [hcons, List.cons_append, Text.trimStart_cons_code (by simp [hx])]
    · have hconcat : name ++ opn :: (value ++ [close]) = (name ++ opn :: value) ++ [close] := by
        simp
      rw [hconcat, Text.trimEnd, Text.dropEndWhile, List.reverse_concat, List.dropWhile_cons,
        if_neg (by simp [hclose.1]), ← List.reverse_concat, List.reverse_reverse]
  have htake : (name ++ opn :: (value ++ [close])).takeWhile isQualifiedChar = name := by
    rw [List.takeWhile_append_of_pos hname, List.takeWhile_cons_of_neg (by simp [hopn.2.1]),
      List.append_nil]
  have hrest : Text.trimStart ((name ++ opn :: (value ++ [close])).drop name.length) =
      opn :: (value ++ [close]) := by
    rw [List.drop_left, Text.trimStart_cons_code (by simp [hopn.1])]
  have hempty : (!name.isEmpty) = true := by simp [hcons]
  rw [initializer?, Text.trim_pad htrim (by simp) hgap hgap']
  simp only [htake, hrest, hempty, hopn.2.2, List.getLast?_concat, hclose.2, Bool.and_self, if_true,
    List.dropLast_concat]

namespace WrittenInit

/-- The bracket in front of the value. -/
def opening (w : WrittenInit) : Char :=
  if w.braced then '\x7b' else '('

/-- The bracket behind the value. -/
def closing (w : WrittenInit) : Char :=
  if w.braced then '\x7d' else ')'

/-- The text of an initializer. -/
def text (w : WrittenInit) : Text :=
  w.name ++ w.opening :: (w.value ++ [w.closing])

/-- What an initializer says. -/
def toInitializer (w : WrittenInit) : Initializer :=
  ⟨w.name, w.value⟩

variable (w : WrittenInit)

/-- The name of a written initializer has nothing but characters of words. -/
theorem forall_isWord_name : ∀ c ∈ w.name, isWord c = true := by
  obtain ⟨c, r, -, -, hword⟩ := isIdentifier_cons w.name_isIdentifier
  exact hword

/-- What opens its argument is a bracket. -/
theorem isBracket_opening : isBracket w.opening = true := by
  rw [opening]
  split <;> rfl

/-- What closes its argument is a bracket. -/
theorem isBracket_closing : isBracket w.closing = true := by
  rw [closing]
  split <;> rfl

/-- The one is closed by the other. -/
theorem closingBracket_opening : closingBracket w.opening = some w.closing := by
  rw [opening, closing]
  split <;> rfl

/-- A closing bracket is closed by none. -/
theorem closingBracket_closing : closingBracket w.closing = none := by
  rw [closing]
  split <;> rfl

/-- The opening bracket is not blank. -/
theorem isBlank_opening : isBlank w.opening = false := by
  rw [opening]
  split <;> rfl

/-- The closing bracket is not blank. -/
theorem isBlank_closing : isBlank w.closing = false := by
  rw [closing]
  split <;> rfl

/-! ### Reading one initializer -/

/-- **What is written is read**, with blanks around it. -/
theorem initializer?_text (gap gap' : Text) (hgap : gap.isBlank = true)
    (hgap' : gap'.isBlank = true) :
    initializer? (gap ++ w.text ++ gap') = some w.toInitializer := by
  have hbrackets : w.opening = '(' ∧ w.closing = ')' ∨ w.opening = '\x7b' ∧ w.closing = '\x7d' := by
    rw [opening, closing]
    split <;> simp
  obtain ⟨hne, hname⟩ := isQualifiedChar_of_isIdentifier w.name_isIdentifier
  rw [text, initializer?_brackets hne hname hbrackets w.value hgap hgap', w.value_isNormal,
    toInitializer]

/-! ### Splitting a list -/

/-- The text of an initializer is not split. -/
theorem splitFrom_text (r : Text) :
    splitFrom ',' false (.atDepth 0) (w.text ++ r) =
      prependHead w.text (splitFrom ',' false (.atDepth 0) r) := by
  have hvalue := splitFrom_nested w.value_isNested (forall_isQuote_of_isBare w.value_isBare)
    (d := 1) (by decide) (w.closing :: r)
  have hbrackets : splitFrom ',' false (.atDepth 0) (w.opening :: (w.value ++ [w.closing]) ++ r) =
      prependHead (w.opening :: (w.value ++ [w.closing]))
        (splitFrom ',' false (.atDepth 0) r) := by
    rw [List.cons_append, List.append_assoc, splitFrom_cons_bracket w.isBracket_opening,
      closingBracket_opening, Option.isSome_some, if_pos rfl]
    refine congrArg (Text.consHead w.opening) (hvalue.trans ?_)
    rw [splitFrom_cons_bracket w.isBracket_closing, closingBracket_closing, ← prependHead,
      prependHead_append]
    rfl
  rw [text, List.append_assoc, splitFrom_word w.forall_isWord_name, hbrackets, prependHead_append]

end WrittenInit

/-- The text of a list of initializers. -/
def initList (ws : List WrittenInit) : Text :=
  Text.join ", " (ws.map WrittenInit.text)

theorem initList_singleton (w : WrittenInit) : initList [w] = w.text := by
  simp [initList, Text.join, List.intercalate]

theorem initList_cons_cons (w v : WrittenInit) (ws : List WrittenInit) :
    initList (w :: v :: ws) = w.text ++ (',' :: ' ' :: initList (v :: ws)) := by
  simp [initList, Text.join, List.intercalate_cons_cons]

/-- The parts of a list are the texts of its initializers, with blanks. -/
theorem filterMap_splitFrom_initList {ws : List WrittenInit} (hne : ws ≠ []) :
    (splitFrom ',' false (.atDepth 0) (' ' :: (initList ws ++ [' ']))).filterMap initializer? =
      ws.map WrittenInit.toInitializer := by
  have hspace : ∀ r : Text, splitFrom ',' false (.atDepth 0) (' ' :: r) =
      Text.consHead ' ' (splitFrom ',' false (.atDepth 0) r) :=
    splitFrom_cons_plain (by decide) (by decide) (by decide)
  induction ws with
  | nil => exact absurd rfl hne
  | cons w ws ih =>
      cases ws with
      | nil =>
          have hread := w.initializer?_text [' '] [' '] rfl rfl
          rw [hspace, initList_singleton, w.splitFrom_text, hspace]
          have hparts : Text.consHead ' ' (prependHead w.text (Text.consHead ' '
              (splitFrom ',' false (.atDepth 0) []))) = [[' '] ++ w.text ++ [' ']] := by
            simp [splitFrom, Text.consHead]
          rw [hparts, List.filterMap_cons_some hread]
          rfl
      | cons v ws =>
          have hread : initializer? (' ' :: (w.text ++ [])) = some w.toInitializer :=
            w.initializer?_text [' '] [] rfl rfl
          have hcut : ∀ r : Text, splitFrom ',' false (.atDepth 0) (',' :: r) =
              [] :: splitFrom ',' false (.atDepth 0) r := fun _ => rfl
          rw [hspace, initList_cons_cons, List.append_assoc, w.splitFrom_text, List.cons_append,
            List.cons_append, hcut, prependHead_cons, Text.consHead,
            List.filterMap_cons_some hread, ih (List.cons_ne_nil v ws)]
          rfl

/-- **A list that is written is read again.** -/
theorem parseInitializers_initList {ws : List WrittenInit} (hne : ws ≠ []) :
    parseInitializers (' ' :: (initList ws ++ [' '])) = ws.map WrittenInit.toInitializer :=
  filterMap_splitFrom_initList hne

/-! ### The characters of a list -/

/-- A list has all characters of an initializer in it. -/
theorem subset_initList {ws : List WrittenInit} {w : WrittenInit} (hw : w ∈ ws) :
    w.text ⊆ initList ws := by
  induction ws with
  | nil => cases hw
  | cons v ws ih =>
      cases ws with
      | nil =>
          rw [List.mem_singleton.mp hw, initList_singleton]
          exact List.Subset.refl _
      | cons u ws =>
          rw [initList_cons_cons]
          rcases List.mem_cons.mp hw with rfl | hw
          · exact List.subset_append_left _ _
          · exact fun c hc => List.mem_append_right _
              (List.mem_cons_of_mem _ (List.mem_cons_of_mem _ (ih hw hc)))

/-- A character in front of the first part leaves all parts made of the characters of the whole. -/
theorem subset_of_mem_consHead {c : Char} {parts : List Text} {r : Text}
    (hparts : ∀ u ∈ parts, u ⊆ r) : ∀ u ∈ Text.consHead c parts, u ⊆ c :: r := by
  intro u hu
  cases parts with
  | nil =>
      rw [List.mem_singleton.mp hu]
      exact List.cons_subset_cons _ (List.nil_subset _)
  | cons v parts =>
      rcases List.mem_cons.mp hu with rfl | hu
      · exact List.cons_subset_cons _ (hparts v List.mem_cons_self)
      · exact List.subset_cons_of_subset _ (hparts u (List.mem_cons_of_mem _ hu))

/-- The parts of a text are made of its characters, wherever the cutting stands. -/
theorem subset_of_mem_splitFrom {sep : Char} {angles : Bool} {s : SplitState} {t : Text} :
    ∀ part ∈ splitFrom sep angles s t, part ⊆ t := by
  intro part h
  induction t generalizing s part with
  | nil =>
      rw [List.mem_singleton.mp h]
      exact List.Subset.refl _
  | cons c r ih =>
      rw [splitFrom] at h
      split at h
      · rcases List.mem_cons.mp h with rfl | h
        · exact List.nil_subset _
        · exact List.subset_cons_of_subset _ (ih _ h)
      · exact subset_of_mem_consHead (fun u hu => ih u hu) part h

/-- So are its words. -/
theorem subset_of_mem_words (t : Text) : ∀ w ∈ t.words, w ⊆ t := by
  fun_induction Text.words t with
  | case1 => simp
  | case2 c r hc ih => exact fun w hw => List.subset_cons_of_subset _ (ih w hw)
  | case3 c r hc hr ih =>
      intro w hw
      rcases List.mem_cons.mp hw with rfl | hw
      · exact List.cons_subset_cons _ (List.nil_subset _)
      · exact List.subset_cons_of_subset _ (ih w hw)
  | case4 c r hc hr ih => exact subset_of_mem_consHead ih

theorem join_cons_cons (sep t u : Text) (parts : List Text) :
    Text.join sep (t :: u :: parts) = t ++ (sep ++ Text.join sep (u :: parts)) := by
  simp [Text.join, List.intercalate_cons_cons]

/-- A character of joined parts is one of the separator or of a part. -/
theorem mem_of_mem_join {sep : Text} {parts : List Text} {c : Char}
    (h : c ∈ Text.join sep parts) : c ∈ sep ∨ ∃ part ∈ parts, c ∈ part := by
  induction parts with
  | nil => simp [Text.join] at h
  | cons t parts ih =>
      cases parts with
      | nil => exact Or.inr ⟨t, List.mem_singleton_self t, by simpa [Text.join] using h⟩
      | cons u parts =>
          rw [join_cons_cons, List.mem_append, List.mem_append] at h
          rcases h with h | h | h
          · exact Or.inr ⟨t, List.mem_cons_self, h⟩
          · exact Or.inl h
          · rcases ih h with hsep | ⟨part, hpart, hc⟩
            · exact Or.inl hsep
            · exact Or.inr ⟨part, List.mem_cons_of_mem _ hpart, hc⟩

/-- A character of a text whose blanks are spaces is a space, or was there before. -/
theorem mem_of_mem_normalizeBlanks {t : Text} {c : Char} (h : c ∈ t.normalizeBlanks) :
    c = ' ' ∨ c ∈ t := by
  rcases mem_of_mem_join h with h | ⟨w, hw, hc⟩
  · exact Or.inl (List.mem_singleton.mp h)
  · exact Or.inr (subset_of_mem_words t w hw hc)

/-- A trimmed text keeps its characters in their order. -/
theorem Text.trim_sublist (t : Text) : t.trim.Sublist t := by
  have hstart : t.trimStart.Sublist t := List.dropWhile_sublist _
  have hend : t.trimStart.trimEnd.Sublist t.trimStart := by
    rw [Text.trimEnd, Text.dropEndWhile, ← List.reverse_sublist, List.reverse_reverse]
    exact List.dropWhile_sublist _
  exact hend.trans hstart

/-- A value that is read has its characters from the text. -/
theorem mem_of_mem_value {t : Text} {i : Initializer} (hi : i ∈ parseInitializers t) {c : Char}
    (hc : c ∈ i.value) : c = ' ' ∨ c ∈ t := by
  obtain ⟨part, hpart, hread⟩ := List.mem_filterMap.mp hi
  suffices h : c = ' ' ∨ c ∈ part from h.imp_right fun h => subset_of_mem_splitFrom part hpart h
  simp only [initializer?] at hread
  split at hread
  · cases hread
  · rename_i opn r hrest
    split at hread
    · obtain rfl := Option.some.inj hread
      refine (mem_of_mem_normalizeBlanks hc).imp_right fun hmem => ?_
      have htail : c ∈ opn :: r := List.mem_cons_of_mem _ (List.dropLast_subset _ hmem)
      rw [← hrest] at htail
      have htrim : c ∈ part.trim := List.mem_of_mem_drop ((List.dropWhile_sublist _).subset htail)
      exact (Text.trim_sublist part).subset htrim
    · cases hread

/-! ### A list that is cut short -/

/-- The number of characters of a text that are not blank. -/
def codeLength (t : Text) : Nat :=
  t.countP fun c => !isBlank c

theorem codeLength_cons (c : Char) (t : Text) :
    codeLength (c :: t) = codeLength t + if isBlank c then 0 else 1 := by
  cases hc : isBlank c <;> simp [codeLength, hc]

/-- The characters that are not blank are counted text by text. -/
theorem codeLength_append (t u : Text) : codeLength (t ++ u) = codeLength t + codeLength u :=
  List.countP_append

/-- The characters and brackets that an initializer takes. -/
def Initializer.size (i : Initializer) : Nat :=
  codeLength i.name + codeLength i.value + 2

/-- Joined parts have those of the parts and one separator less than there are parts. -/
theorem codeLength_join (sep : Text) (parts : List Text) :
    codeLength (Text.join sep parts) =
      (parts.map codeLength).sum + (parts.length - 1) * codeLength sep := by
  induction parts with
  | nil => simp [Text.join, codeLength]
  | cons t parts ih =>
      cases parts with
      | nil => simp [Text.join, List.intercalate]
      | cons u parts =>
          rw [join_cons_cons, codeLength_append, codeLength_append, ih]
          simp [Nat.add_mul]
          omega

/-- A character in front of the first part is counted once. -/
theorem sum_codeLength_consHead (c : Char) (parts : List Text) :
    ((Text.consHead c parts).map codeLength).sum =
      codeLength [c] + (parts.map codeLength).sum := by
  cases parts with
  | nil => rfl
  | cons t parts =>
      simp only [Text.consHead, List.map_cons, List.sum_cons]
      rw [show c :: t = [c] ++ t from rfl, codeLength_append, Nat.add_assoc]

/-- The words of a text have all characters of it that are not blank. -/
theorem sum_codeLength_words (t : Text) : (t.words.map codeLength).sum = codeLength t := by
  fun_induction Text.words t with
  | case1 => rfl
  | case2 c r hc ih => rw [ih, codeLength_cons, if_pos hc, Nat.add_zero]
  | case3 c r hc hr ih =>
      rw [List.map_cons, List.sum_cons, ih, ← codeLength_append]
      rfl
  | case4 c r hc hr ih =>
      rw [sum_codeLength_consHead, ih, ← codeLength_append]
      rfl

/-- Writing blanks as spaces leaves the other characters. -/
theorem codeLength_normalizeBlanks (t : Text) : codeLength t.normalizeBlanks = codeLength t := by
  rw [Text.normalizeBlanks, codeLength_join, sum_codeLength_words]
  rfl

/-- A trimmed text has no more of them than before. -/
theorem codeLength_trim_le (t : Text) : codeLength t.trim ≤ codeLength t :=
  (Text.trim_sublist t).countP_le

/-- An initializer that is read has its name, its value and its brackets from the text. -/
theorem size_le_of_initializer? {part : Text} {i : Initializer} (h : initializer? part = some i) :
    i.size ≤ codeLength part := by
  refine Nat.le_trans ?_ (codeLength_trim_le part)
  simp only [initializer?] at h
  split at h
  · cases h
  · rename_i opn r hrest
    split at h
    · rename_i hform
      obtain rfl := Option.some.inj h
      simp only [Bool.and_eq_true, Bool.or_eq_true, beq_iff_eq] at hform
      obtain ⟨⟨-, hopn⟩, hlast⟩ := hform
      have hopen : isBlank opn = false := by rcases hopn with rfl | rfl <;> rfl
      have hclose : codeLength r = codeLength r.dropLast + 1 := by
        rcases hlast with hlast | hlast
        all_goals
          rw [← List.dropLast_append_getLast? _ hlast]
          simp [codeLength]
          rfl
      have hsplit : codeLength (part.trim.takeWhile isQualifiedChar) +
          codeLength (part.trim.drop (part.trim.takeWhile isQualifiedChar).length) =
          codeLength part.trim := by
        rw [← codeLength_append, List.prefix_iff_eq_append.mp (List.takeWhile_prefix _)]
      have hdrop : codeLength (opn :: r) ≤
          codeLength (part.trim.drop (part.trim.takeWhile isQualifiedChar).length) := by
        rw [← hrest]
        exact (List.dropWhile_sublist _).countP_le
      rw [codeLength_cons, if_neg (by simp [hopen])] at hdrop
      simp only [Initializer.size, codeLength_normalizeBlanks]
      omega
    · cases h

/-- Cutting a text gives at least one part. -/
theorem splitFrom_ne_nil (sep : Char) (angles : Bool) (s : SplitState) (t : Text) :
    splitFrom sep angles s t ≠ [] := by
  cases t with
  | nil => exact List.cons_ne_nil _ _
  | cons c r =>
      rw [splitFrom]
      split
      · exact List.cons_ne_nil _ _
      · cases splitFrom sep angles (s.next angles c) r <;> exact List.cons_ne_nil _ _

/-- Splitting takes separators out, and nothing else. -/
theorem sum_codeLength_splitFrom (s : SplitState) (t : Text) :
    ((splitFrom ',' false s t).map codeLength).sum + (splitFrom ',' false s t).length =
      codeLength t + 1 := by
  induction t generalizing s with
  | nil => rfl
  | cons c r ih =>
      rw [splitFrom]
      split
      · rename_i hcut
        have hc : c = ',' := by
          simp only [SplitState.cuts, Bool.and_eq_true, beq_iff_eq] at hcut
          exact hcut.1.1.1
        have hcomma : codeLength (c :: r) = codeLength r + 1 := by
          rw [hc]
          exact codeLength_cons ',' r
        rw [List.map_cons, List.sum_cons, List.length_cons, hcomma, ← ih s]
        simp [codeLength]
        omega
      · have hlength : ∀ parts : List Text, parts ≠ [] →
            (Text.consHead c parts).length = parts.length := by
          intro parts hparts
          cases parts with
          | nil => exact absurd rfl hparts
          | cons _ _ => rfl
        rw [sum_codeLength_consHead, hlength _ (splitFrom_ne_nil _ _ _ _), Nat.add_assoc, ih,
          show c :: r = [c] ++ r from rfl, codeLength_append, Nat.add_assoc]

/-- What is read of a text does not have more characters than the text. -/
theorem sum_size_parseInitializers (t : Text) :
    ((parseInitializers t).map Initializer.size).sum + (parseInitializers t).length ≤
      codeLength t + 1 := by
  have hparts : ∀ parts : List Text,
      ((parts.filterMap initializer?).map Initializer.size).sum +
        (parts.filterMap initializer?).length ≤ (parts.map codeLength).sum + parts.length := by
    intro parts
    induction parts with
    | nil => exact Nat.le_refl _
    | cons part parts ih =>
        cases hread : initializer? part with
        | none =>
            rw [List.filterMap_cons_none hread]
            simp only [List.map_cons, List.sum_cons, List.length_cons]
            omega
        | some i =>
            have hsize := size_le_of_initializer? hread
            rw [List.filterMap_cons_some hread]
            simp only [List.map_cons, List.sum_cons, List.length_cons]
            omega
  rw [← sum_codeLength_splitFrom {} t]
  exact hparts _

/-- The text of a written initializer is as long as the initializer that is read from it. -/
theorem WrittenInit.codeLength_text (w : WrittenInit) :
    codeLength w.text = w.toInitializer.size := by
  have hopening := w.isBlank_opening
  have hclosing := w.isBlank_closing
  have hbrackets : codeLength [w.closing] = 1 := by
    rw [codeLength_cons, if_neg (by simp [hclosing])]
    rfl
  rw [text, codeLength_append, codeLength_cons, codeLength_append, if_neg (by simp [hopening]),
    hbrackets, Initializer.size, toInitializer]
  dsimp only
  omega

/-- What is written has all characters of the list. -/
theorem sum_size_initList {ws : List WrittenInit} (hne : ws ≠ []) :
    ((ws.map WrittenInit.toInitializer).map Initializer.size).sum + ws.length =
      codeLength (initList ws) + 1 := by
  have hsep : codeLength ", " = 1 := by decide
  have hpos := List.length_pos_of_ne_nil hne
  have hmap : (ws.map WrittenInit.text).map codeLength =
      (ws.map WrittenInit.toInitializer).map Initializer.size := by
    simp [WrittenInit.codeLength_text]
  rw [initList, codeLength_join, hmap, hsep, List.length_map]
  omega

/-- **A text with less code is read as another list.** -/
theorem parseInitializers_ne_of_codeLength_lt {ws : List WrittenInit} (hne : ws ≠ []) {t : Text}
    (h : codeLength t < codeLength (initList ws)) :
    parseInitializers t ≠ ws.map WrittenInit.toInitializer := by
  intro heq
  have hread := sum_size_parseInitializers t
  have hwritten := sum_size_initList hne
  rw [heq, List.length_map] at hread
  omega

end Sharpen
