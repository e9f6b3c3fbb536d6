import Sharpen.Proofs.CSharp.Lines
import Sharpen.Proofs.CSharp.TextMacros
import Sharpen.Proofs.Code.Nested
import Sharpen.Proofs.Decl.BaseType

/-!
# Code without Text Macros

Code that is rid of its text macros is converted from left to right: a literal on one line stays, a
word is replaced, and all other characters stay. `ConvertsCode` is that reading as a relation, with
the words that are replaced, and all that is known about converted code is known by induction on it.

What is taken for a literal here are two quotes on a line, wherever they stand. That is not what
`pieces` takes for one, since a quote in a comment starts a literal as well. So a word in a literal
may be taken for code and replaced, if a comment before it on its line has a quote. The results
about parts say where this does not happen: code is converted part by part wherever no literal and
no word goes over the end of a part.

## Main definitions

* `convertCode` — converted code; `replacedIn` lists the words that are replaced, each as the text
  from its start and the text behind it.
* `ConvertsCode` — converting code, from left to right.
* `Parted` — a place over which no literal and no word goes.

## Main results

* `convertsCode`, `ConvertsCode.eq` — the relation and the functions agree.
* `ConvertsCode.append` — code is converted part by part.
* `parted_of_newline`, `parted_of_quoteless` — the end of a line and the end of a part without
  quotes are such places.
-/

namespace Sharpen

/-! ### Code without text macros -/

/-- Code without text macros in C#. -/
def convertCode (t : Text) : Text :=
  Text.mapWords convertWord (literalSegments t).1 ++
    (literalSegments t).2.flatMap fun (literal, code) => literal ++ Text.mapWords convertWord code

/-- A body is converted by taking the macros off and converting the code that is left. -/
theorem convertBody_eq (t : Text) : convertBody t = convertCode (takeOff none t) :=
  rfl

/-- A word in front of a text, if it is replaced. -/
def replacedWord (w t : Text) : List (Text × Text) :=
  if convertWord w = w then [] else [(w ++ t, t)]

/-- **The words that are replaced** in code without text macros, each as the text from its start and
the text behind it. -/
def replacedIn : Text → List (Text × Text)
  | [] => []
  | c :: r =>
    match h : behindLiteral? c r with
    | some rest =>
      have := length_le_of_behindLiteral? h
      replacedIn rest
    | none =>
      if isWord c then
        have := (List.dropWhile_suffix (l := r) isWord).length_le
        replacedWord (c :: r.takeWhile isWord) (r.dropWhile isWord)
          ++ replacedIn (r.dropWhile isWord)
      else replacedIn r
termination_by t => t.length

/-- A literal on one line, with its quotes. -/
def IsLineLiteral (l : Text) : Prop :=
  ∃ q content, isQuote q = true ∧ literalRest? true q (content ++ [q]) = some [] ∧
    l = q :: (content ++ [q])

/-- A character behind which no literal starts is in front of the first segment. -/
theorem literalSegments_cons {c : Char} {t : Text} (h : behindLiteral? c t = none) :
    literalSegments (c :: t) = (c :: (literalSegments t).1, (literalSegments t).2) := by
  rw [literalSegments]
  split
  · rename_i rest hrest
    rw [h] at hrest
    cases hrest
  · rfl

/-- What is left behind a literal is what follows it. -/
theorem IsLineLiteral.behind {l : Text} (hl : IsLineLiteral l) (t : Text) :
    ∃ q v, l = q :: v ∧ behindLiteral? q (v ++ t) = some t := by
  obtain ⟨q, content, hq, hclosed, rfl⟩ := hl
  refine ⟨q, content ++ [q], rfl, ?_⟩
  rw [behindLiteral?, if_pos hq]
  exact literalRest?_append hclosed t

/-- A literal that code starts with is cut off. -/
theorem literalSegments_literal {l : Text} (hl : IsLineLiteral l) (t : Text) :
    literalSegments (l ++ t) = ([], (l, (literalSegments t).1) :: (literalSegments t).2) := by
  obtain ⟨q, v, rfl, hbehind⟩ := hl.behind t
  rw [List.cons_append, literalSegments]
  split
  · rename_i rest hrest
    obtain rfl := Option.some.inj (hbehind.symm.trans hrest)
    have hlength : (v ++ t).length + 1 - t.length = (q :: v).length := by
      simp only [List.length_append, List.length_cons]
      omega
    rw [hlength, show q :: (v ++ t) = (q :: v) ++ t from rfl, List.take_left]
  · rename_i hnone
    rw [hbehind] at hnone
    cases hnone

/-- No word is replaced in a literal. -/
theorem replacedIn_literal {l : Text} (hl : IsLineLiteral l) (t : Text) :
    replacedIn (l ++ t) = replacedIn t := by
  obtain ⟨q, v, rfl, hbehind⟩ := hl.behind t
  rw [List.cons_append, replacedIn]
  split
  · rename_i rest hrest
    exact congrArg replacedIn (Option.some.inj (hrest.symm.trans hbehind))
  · rename_i hnone
    rw [hbehind] at hnone
    cases hnone

/-- A literal stays as it is. -/
theorem convertCode_literal {l : Text} (hl : IsLineLiteral l) (t : Text) :
    convertCode (l ++ t) = l ++ convertCode t := by
  rw [convertCode, literalSegments_literal hl, convertCode, List.flatMap_cons, List.append_assoc]
  rfl

/-- A character that is in no word and starts no literal stays as it is. -/
theorem convertCode_cons {c : Char} {t : Text} (hc : isWord c = false)
    (h : behindLiteral? c t = none) : convertCode (c :: t) = c :: convertCode t := by
  rw [convertCode, literalSegments_cons h, Text.mapWords_cons_of_not_isWord _ hc]
  rfl

/-- A character that is in no word and starts no literal is not replaced. -/
theorem replacedIn_cons {c : Char} {t : Text} (hc : isWord c = false)
    (h : behindLiteral? c t = none) : replacedIn (c :: t) = replacedIn t := by
  rw [replacedIn]
  split
  · rename_i rest hrest
    rw [h] at hrest
    cases hrest
  · rw [if_neg (Bool.eq_false_iff.mp hc)]

/-- Only a quote starts a literal. -/
theorem behindLiteral?_of_not_isQuote {c : Char} (h : isQuote c = false) (t : Text) :
    behindLiteral? c t = none := by
  rw [behindLiteral?, h]
  rfl

/-- The code that a text starts with starts with a word only if the text does. -/
theorem head?_literalSegments {t : Text} (h : t.head?.any isWord = false) :
    (literalSegments t).1.head?.any isWord = false := by
  cases t with
  | nil => simp [literalSegments]
  | cons c t =>
      cases hbehind : behindLiteral? c t with
      | none =>
          rw [literalSegments_cons hbehind]
          exact h
      | some rest =>
          rw [literalSegments]
          split
          · rfl
          · rename_i hnone
            rw [hbehind] at hnone
            cases hnone

/-- A word with something else behind it is the word that the text starts with. -/
theorem Text.leadAndMapped_word (f : Text → Text) {w t : Text} (hw : ∀ c ∈ w, isWord c = true)
    (ht : t.head?.any isWord = false) :
    Text.leadAndMapped f (w ++ t) = (w, t.mapWords f) := by
  induction w with
  | nil =>
      cases t with
      | nil => rfl
      | cons c t => exact Text.leadAndMapped_cons_of_not_isWord f ht t ▸
          Text.mapWords_cons_of_not_isWord f ht t ▸ rfl
  | cons c w ih =>
      obtain ⟨hc, hw⟩ := List.forall_mem_cons.mp hw
      rw [List.cons_append, Text.leadAndMapped_cons_of_isWord f hc, ih hw]

/-- A word is replaced. -/
theorem convertCode_word {w t : Text} (hw : ∀ c ∈ w, isWord c = true)
    (ht : t.head?.any isWord = false) : convertCode (w ++ t) = convertWord w ++ convertCode t := by
  have hsegments : literalSegments (w ++ t)
      = (w ++ (literalSegments t).1, (literalSegments t).2) := by
    induction w with
    | nil => rfl
    | cons c w ih =>
        obtain ⟨hc, hw⟩ := List.forall_mem_cons.mp hw
        rw [List.cons_append, literalSegments_cons
          (behindLiteral?_of_not_isQuote (isQuote_eq_false_of_isWord hc) _), ih hw]
        rfl
  have hword : Text.mapWord convertWord w = convertWord w := by
    cases w <;> rfl
  rw [convertCode, hsegments, Text.mapWords_eq,
    Text.leadAndMapped_word convertWord hw (head?_literalSegments ht), hword, List.append_assoc]
  rfl

/-- A word is replaced as a whole. -/
theorem replacedIn_word {w t : Text} (hne : w ≠ []) (hw : ∀ c ∈ w, isWord c = true)
    (ht : t.head?.any isWord = false) :
    replacedIn (w ++ t) = replacedWord w t ++ replacedIn t := by
  obtain ⟨c, v, rfl⟩ := List.exists_cons_of_ne_nil hne
  obtain ⟨hc, hv⟩ := List.forall_mem_cons.mp hw
  have htail : t.takeWhile isWord = [] ∧ t.dropWhile isWord = t := by
    cases t with
    | nil => exact ⟨rfl, rfl⟩
    | cons d t =>
        have hd : isWord d = false := ht
        simp [hd]
  have hnone := behindLiteral?_of_not_isQuote (isQuote_eq_false_of_isWord hc) (v ++ t)
  rw [List.cons_append, replacedIn]
  split
  · rename_i rest hrest
    rw [hnone] at hrest
    cases hrest
  · rw [if_pos hc, List.takeWhile_append_of_pos hv, List.dropWhile_append_of_pos hv, htail.1,
      htail.2, List.append_nil]

/-- **Converting code without text macros**, from left to right, and the words that are replaced. -/
inductive ConvertsCode : Text → Text → List (Text × Text) → Prop
  | nil : ConvertsCode [] [] []
  | literal {l t u : Text} {ws : List (Text × Text)} (hl : IsLineLiteral l)
      (hrest : ConvertsCode t u ws) : ConvertsCode (l ++ t) (l ++ u) ws
  | word {w t u : Text} {ws : List (Text × Text)} (hne : w ≠ []) (hw : ∀ c ∈ w, isWord c = true)
      (ht : t.head?.any isWord = false) (hrest : ConvertsCode t u ws) :
      ConvertsCode (w ++ t) (convertWord w ++ u) (replacedWord w t ++ ws)
  | other {c : Char} {t u : Text} {ws : List (Text × Text)} (hc : isWord c = false)
      (hnone : behindLiteral? c t = none) (hrest : ConvertsCode t u ws) :
      ConvertsCode (c :: t) (c :: u) ws

/-- What code is converted to is the converted code. -/
theorem ConvertsCode.eq {t u : Text} {ws : List (Text × Text)} (h : ConvertsCode t u ws) :
    convertCode t = u ∧ replacedIn t = ws := by
  induction h with
  | nil =>
      constructor
      · simp [convertCode, literalSegments, Text.mapWords, Text.leadAndMapped, Text.mapWord]
      · simp [replacedIn]
  | literal hl hrest ih => rw [convertCode_literal hl, replacedIn_literal hl, ih.1, ih.2]; simp
  | word hne hw ht hrest ih =>
      rw [convertCode_word hw ht, replacedIn_word hne hw ht, ih.1, ih.2]
      exact ⟨rfl, rfl⟩
  | other hc hnone hrest ih =>
      rw [convertCode_cons hc hnone, replacedIn_cons hc hnone, ih.1, ih.2]
      exact ⟨rfl, rfl⟩

/-- A text that starts with a word character starts with a word. -/
theorem exists_word {c : Char} {t : Text} (hc : isWord c = true) :
    ∃ w r, c :: t = w ++ r ∧ w ≠ [] ∧ (∀ d ∈ w, isWord d = true) ∧ r.head?.any isWord = false := by
  refine ⟨(c :: t).takeWhile isWord, (c :: t).dropWhile isWord,
    List.takeWhile_append_dropWhile.symm, by simp [hc], List.all_eq_true.mp List.all_takeWhile, ?_⟩
  have hnot := List.head?_dropWhile_not isWord (c :: t)
  cases hdrop : ((c :: t).dropWhile isWord).head? with
  | none => rfl
  | some d => simpa [hdrop] using hnot

/-- **All code is converted that way.** -/
theorem convertsCode (t : Text) : ConvertsCode t (convertCode t) (replacedIn t) := by
  suffices h : ∃ u ws, ConvertsCode t u ws by
    obtain ⟨u, ws, h⟩ := h
    rw [h.eq.1, h.eq.2]
    exact h
  induction hlength : t.length using Nat.strongRecOn generalizing t with
  | ind n ih =>
      cases t with
      | nil => exact ⟨_, _, .nil⟩
      | cons c t =>
          have hshort : t.length < n := hlength ▸ Nat.lt_succ_self _
          cases hbehind : behindLiteral? c t with
          | some rest =>
              obtain ⟨l, hl, hlt⟩ : ∃ l, IsLineLiteral l ∧ c :: t = l ++ rest := by
                rw [behindLiteral?] at hbehind
                split at hbehind
                · rename_i hquote
                  obtain ⟨content, rfl, hclosed⟩ := exists_of_literalRest? hbehind
                  exact ⟨_, ⟨c, content, hquote, hclosed, rfl⟩, by simp⟩
                · cases hbehind
              have hle := length_le_of_behindLiteral? hbehind
              obtain ⟨u, ws, hrest⟩ := ih rest.length (Nat.lt_of_le_of_lt hle hshort) rest rfl
              rw [hlt]
              exact ⟨_, _, .literal hl hrest⟩
          | none =>
              cases hc : isWord c with
              | false =>
                  obtain ⟨u, ws, hrest⟩ := ih t.length hshort t rfl
                  exact ⟨_, _, .other hc hbehind hrest⟩
              | true =>
                  obtain ⟨w, r, hsplit, hne, hw, hr⟩ := exists_word (t := t) hc
                  have hpos := List.length_pos_iff.mpr hne
                  have hlt : r.length < n := by
                    rw [← hlength, hsplit, List.length_append]
                    omega
                  obtain ⟨u, ws, hrest⟩ := ih r.length hlt r rfl
                  rw [hsplit]
                  exact ⟨_, _, .word hne hw hr hrest⟩

/-- The last character of a text is the last one whatever stands in front of the text. -/
theorem any_getLast?_append {p : Char → Bool} {v : Text} (h : v.getLast?.any p = true) (w : Text) :
    (w ++ v).getLast?.any p = true := by
  rw [List.getLast?_append]
  cases hv : v.getLast? with
  | none => simp [hv] at h
  | some c => simpa [hv] using h

/-- **A place where code is parted**: no literal that starts before it goes over it, and no word. -/
structure Parted (v r : Text) : Prop where
  literals : ∀ l s, IsLineLiteral l → l ++ s <:+ v ++ r → r.length < (l ++ s).length →
    r.length ≤ s.length
  words : v.getLast?.any isWord = true → r.head?.any isWord = false

/-- What stands further in front does not matter. -/
theorem Parted.behind {w v r : Text} (h : Parted (w ++ v) r) : Parted v r := by
  refine ⟨fun l s hl hs => h.literals l s hl (hs.trans ?_),
    fun hlast => h.words (any_getLast?_append hlast w)⟩
  rw [List.append_assoc]
  exact List.suffix_append _ _

/-- A word that does not end in the first part does not start there. -/
theorem eq_nil_of_word {w t v r : Text} (h : w ++ t = v ++ r) (hw : ∀ c ∈ w, isWord c = true)
    (hparted : v.getLast?.any isWord = true → r.head?.any isWord = false)
    (hover : ¬ r.length ≤ t.length) : v = [] := by
  rcases List.append_eq_append_iff.mp h with ⟨a, -, rfl⟩ | ⟨a, rfl, rfl⟩
  · exact absurd (by simp) hover
  · by_contra hv
    have hlast : v.getLast?.any isWord = true := by
      rw [List.getLast?_eq_some_getLast hv]
      exact hw _ (List.mem_append_left a (List.getLast_mem hv))
    cases a with
    | nil => exact hover (Nat.le_refl _)
    | cons x a =>
        have hx := hw x (List.mem_append_right v List.mem_cons_self)
        exact absurd (hparted hlast) (by simp [hx])

/-- A quote that starts no literal starts none in front of less text. -/
theorem behindLiteral?_of_append {c : Char} {v r : Text} (h : behindLiteral? c (v ++ r) = none) :
    behindLiteral? c v = none := by
  rw [behindLiteral?] at h ⊢
  split
  · rename_i hquote
    rw [if_pos hquote] at h
    rw [Option.eq_none_iff_forall_ne_some]
    intro rest hrest
    exact Option.some_ne_none _ ((literalRest?_append hrest r).symm.trans h)
  · rfl

/-- A word that is replaced stands before what is behind it. -/
theorem length_lt_of_mem_replacedWord {w t : Text} (hne : w ≠ []) :
    ∀ m ∈ replacedWord w t, t.length < m.1.length := by
  have hpos := List.length_pos_iff.mpr hne
  intro m hm
  rw [replacedWord] at hm
  split_ifs at hm
  · cases hm
  · obtain rfl := List.mem_singleton.mp hm
    simp only [List.length_append]
    omega

/-- A word of the first part is replaced whatever follows the part. -/
theorem replacedWord_append (w t r : Text) :
    replacedWord w (t ++ r) = (replacedWord w t).map fun m => (m.1 ++ r, m.2 ++ r) := by
  rw [replacedWord, replacedWord]
  split_ifs
  · rfl
  · simp

namespace ConvertsCode

variable {t u v r : Text} {ws : List (Text × Text)}

/-- Nothing in front of code is converted to nothing. -/
theorem nil_append (h : ConvertsCode r u ws) : u = convertCode [] ++ convertCode r ∧
    ws = (replacedIn []).map (fun m => (m.1 ++ r, m.2 ++ r)) ++ replacedIn r := by
  rw [ConvertsCode.nil.eq.1, ConvertsCode.nil.eq.2, h.eq.1, h.eq.2]
  exact ⟨rfl, rfl⟩

/-- **Code without text macros is converted part by part.** A word that starts in the first part
ends there, and so does a literal. -/
theorem append (h : ConvertsCode t u ws) (ht : t = v ++ r) (hparted : Parted v r) :
    u = convertCode v ++ convertCode r ∧
      ws = (replacedIn v).map (fun m => (m.1 ++ r, m.2 ++ r)) ++ replacedIn r := by
  induction h generalizing v with
  | nil =>
      obtain ⟨rfl, rfl⟩ := List.append_eq_nil_iff.mp ht.symm
      exact ConvertsCode.nil.nil_append
  | @literal l t u ws hl hrest ih =>
      by_cases hlt : r.length < (l ++ t).length
      · obtain ⟨v, rfl, rfl⟩ :=
          exists_append_of_length_le ht (hparted.literals l t hl (ht ▸ List.suffix_refl _) hlt)
        obtain ⟨rfl, rfl⟩ := ih rfl hparted.behind
        rw [convertCode_literal hl, replacedIn_literal hl, List.append_assoc]
        exact ⟨rfl, rfl⟩
      · obtain rfl : v = [] := by
          rw [ht, List.length_append] at hlt
          exact List.eq_nil_of_length_eq_zero (by omega)
        obtain rfl : l ++ t = r := ht
        exact (ConvertsCode.literal hl hrest).nil_append
  | @word w t u ws hne hw hhead hrest ih =>
      by_cases hle : r.length ≤ t.length
      · obtain ⟨v, rfl, rfl⟩ := exists_append_of_length_le ht hle
        have hv : v.head?.any isWord = false := by
          cases v with
          | nil => rfl
          | cons => exact hhead
        obtain ⟨rfl, rfl⟩ := ih rfl hparted.behind
        rw [convertCode_word hw hv, replacedIn_word hne hw hv, replacedWord_append,
          List.append_assoc, List.map_append, List.append_assoc]
        exact ⟨rfl, rfl⟩
      · obtain rfl := eq_nil_of_word ht hw hparted.words hle
        obtain rfl : w ++ t = r := ht
        exact (ConvertsCode.word hne hw hhead hrest).nil_append
  | @other c t u ws hc hnone hrest ih =>
      cases v with
      | nil =>
          obtain rfl : c :: t = r := ht
          exact (ConvertsCode.other hc hnone hrest).nil_append
      | cons d v =>
          obtain ⟨rfl, rfl⟩ := List.cons.inj ht
          have hbehind : Parted v r := Parted.behind (w := [c]) hparted
          have hnone' := behindLiteral?_of_append hnone
          obtain ⟨rfl, rfl⟩ := ih rfl hbehind
          rw [convertCode_cons hc hnone', replacedIn_cons hc hnone']
          exact ⟨rfl, rfl⟩

end ConvertsCode

/-- A literal that closes on its line has no newline. -/
theorem not_mem_newline_of_literalRest? {q : Char} (hq : q ≠ '\n') {u : Text}
    (h : literalRest? true q u = some []) : '\n' ∉ u := by
  fun_induction literalRest? true q u with
  | case1 => cases h
  | case2 c hc => simpa [beq_iff_eq.mp hc] using hq.symm
  | case3 => cases h
  | case4 => cases h
  | case5 => cases h
  | case6 c d t hc hb hd ih =>
      obtain rfl := beq_iff_eq.mp hb
      simpa [Ne.symm (show d ≠ '\n' by simpa using hd)] using ih h
  | case7 => cases h
  | case8 c d t hc hb ho ih =>
      have hc : '\n' ≠ c := Ne.symm (by simpa using ho)
      exact List.not_mem_cons_of_ne_of_not_mem hc (ih h)

namespace IsLineLiteral

variable {l : Text}

/-- Literals on one line have no newline. -/
theorem not_mem_newline (h : IsLineLiteral l) : '\n' ∉ l := by
  obtain ⟨q, content, hq, hclosed, rfl⟩ := h
  have hline : q ≠ '\n' := by
    rintro rfl
    exact absurd hq (by decide)
  exact List.not_mem_cons_of_ne_of_not_mem hline.symm
    (not_mem_newline_of_literalRest? hline hclosed)

/-- Literals start and end with a quote. -/
theorem exists_quote (h : IsLineLiteral l) :
    ∃ q, isQuote q = true ∧ l.head? = some q ∧ l.getLast? = some q := by
  obtain ⟨q, content, hq, -, rfl⟩ := h
  exact ⟨q, hq, rfl, by rw [← List.cons_append, List.getLast?_concat]⟩

end IsLineLiteral

/-- Nothing goes over the end of a line. -/
theorem parted_of_newline (v : Text) {r : Text} (hr : ∀ c ∈ r.head?, c = '\n') : Parted v r := by
  refine ⟨?_, fun _ => ?_⟩
  · rintro l s hl ⟨z, hz⟩ hlt
    by_contra hshort
    rw [← List.append_assoc] at hz
    rcases List.append_eq_append_iff.mp hz with ⟨a, -, rfl⟩ | ⟨a, ha, rfl⟩
    · exact hshort (by rw [List.length_append]; omega)
    · cases a with
      | nil => exact hshort (Nat.le_refl _)
      | cons c a =>
          obtain rfl := hr c rfl
          have hsuffix : '\n' :: a <:+ l := List.suffix_of_suffix_length_le
            (ha ▸ List.suffix_append v ('\n' :: a)) (List.suffix_append z l)
            (by rw [List.length_append, List.length_append] at hlt; omega)
          have hnewline : '\n' ∈ l := hsuffix.subset List.mem_cons_self
          exact hl.not_mem_newline hnewline
  · cases hhead : r.head? with
    | none => rfl
    | some c => exact hr c hhead ▸ (by decide)

/-- Nothing goes over the end of a part without quotes that does not end with a word. -/
theorem parted_of_quoteless {v : Text} (hv : ∀ c ∈ v, isQuote c = false)
    (hlast : v.getLast?.any isWord = false) (r : Text) : Parted v r := by
  refine ⟨?_, fun h => absurd (hlast.symm.trans h) nofun⟩
  rintro l s hl hsuffix hlt
  obtain ⟨a, ha⟩ : r <:+ l ++ s :=
    List.suffix_of_suffix_length_le (List.suffix_append v r) hsuffix hlt.le
  obtain ⟨z, hz⟩ := hsuffix
  obtain ⟨q, hq, hhead, -⟩ := hl.exists_quote
  cases a with
  | nil => exact absurd (congrArg List.length ha) hlt.ne
  | cons c a =>
      have hc : c = q := by
        have hheads := congrArg List.head? ha
        rw [List.head?_append (l := l), hhead] at hheads
        exact Option.some.inj hheads
      rw [← ha, ← List.append_assoc] at hz
      have hmem : c ∈ v := List.append_cancel_right hz ▸
        List.mem_append_right z List.mem_cons_self
      exact absurd (hv c hmem) (by simp [hc, hq])

end Sharpen
