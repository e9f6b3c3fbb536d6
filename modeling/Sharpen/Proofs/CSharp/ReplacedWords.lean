import Mathlib.Data.List.Chain
import Sharpen.Proofs.CSharp.ConvertedCode
import Sharpen.Proofs.Code.Rewriting
import Sharpen.Proofs.Decl.CommentCode

/-!
# Words Replaced in Code

Converting code replaces words by words. A word has no quote, no slash, no star, no backslash and no
newline, so code with other words in it is read into the same pieces: a comment stays a comment, and
a literal stays a literal. A literal is changed if, and only if, a word that is replaced starts in
it, since no word goes over a quote.

`Respells` says only this much of the conversion: some words of a text are others, and no longer.
The pass over the pieces is made for that relation. Where words are in fact replaced inside of
literals is another matter: it takes a comment with a quote before the literal on its line.

## Main definitions

* `Respells` — a text with other words in it.
* `Separate` — a block comment has no quotes, or ends its line.

## Main results

* `ConvertsCode.respells` — converting code replaces words.
* `Respells.exists_advances` — the pass over the pieces.
* `literals_convertCode` — the literals stay if, and only if, no word is replaced in one.
* `untouched_replacedIn` — no word is replaced in a literal if block comments are separate.
-/

namespace Sharpen

/-! ### Other words -/

/-- A word that stands for another one, which is not longer. -/
structure Respelled (w v : Text) : Prop where
  ne_nil : v ≠ []
  source : ∀ c ∈ w, isWord c = true
  target : ∀ c ∈ v, isWord c = true
  length_le : v.length ≤ w.length
  ne : v ≠ w

/-- **A text with other words in it**, and where they start and end. -/
inductive Respells : Text → Text → List (Text × Text) → Prop
  | nil : Respells [] [] []
  | same {t u : Text} {ws : List (Text × Text)} (c : Char) (hrest : Respells t u ws) :
      Respells (c :: t) (c :: u) ws
  | word {w v t u : Text} {ws : List (Text × Text)} (hw : Respelled w v)
      (hrest : Respells t u ws) : Respells (w ++ t) (v ++ u) ((w ++ t, t) :: ws)

/-- Words are replaced by words. -/
theorem isWord_convertWord {w : Text} (hw : ∀ c ∈ w, isWord c = true) :
    ∀ c ∈ convertWord w, isWord c = true := by
  rw [convertWord]
  split_ifs
  · exact List.all_eq_true.mp (by decide)
  · exact List.all_eq_true.mp (by decide)
  · exact List.all_eq_true.mp (by decide)
  · exact hw

/-- A word is replaced by one that is not longer. -/
theorem length_convertWord (w : Text) : (convertWord w).length ≤ w.length := by
  rw [convertWord]
  split_ifs with hnull htrue hfalse
  · rcases (by simpa using hnull) with rfl | rfl <;> decide
  · obtain rfl := beq_iff_eq.mp htrue
    decide
  · obtain rfl := beq_iff_eq.mp hfalse
    decide
  · exact Nat.le_refl _

/-- A word is replaced by a word. -/
theorem convertWord_ne_nil {w : Text} (hw : w ≠ []) : convertWord w ≠ [] := by
  rw [convertWord]
  split_ifs
  · decide
  · decide
  · decide
  · exact hw

namespace Respells

variable {t u v r : Text} {ws : List (Text × Text)}

/-- What stays may stand in front. -/
theorem append_left (l : Text) (h : Respells t u ws) : Respells (l ++ t) (l ++ u) ws := by
  induction l with
  | nil => exact h
  | cons c l ih => exact .same c ih

end Respells

/-- **Converting code replaces words.** -/
theorem ConvertsCode.respells {t u : Text} {ws : List (Text × Text)} (h : ConvertsCode t u ws) :
    Respells t u ws := by
  induction h with
  | nil => exact .nil
  | literal hl hrest ih => exact ih.append_left _
  | @word w t u ws hne hw ht hrest ih =>
      rw [replacedWord]
      split_ifs with hsame
      · rw [hsame]
        exact ih.append_left w
      · have hrespelled : Respelled w (convertWord w) :=
          ⟨convertWord_ne_nil hne, hw, isWord_convertWord hw, length_convertWord w, hsame⟩
        exact .word hrespelled ih
  | other hc hnone hrest ih => exact .same _ ih

/-! ### What is the same with other words -/

/-- No two characters in a row close a comment. -/
def Unclosing (t : Text) : Prop :=
  t.IsChain fun c d => ¬ (c = '*' ∧ d = '/')

/-- A text has no mark that closes comments if no two characters in a row are one. -/
theorem unclosing_iff {t : Text} : Unclosing t ↔ t.hasInfix "*/" = false := by
  induction t with
  | nil => exact iff_of_true .nil (by decide)
  | cons c t ih =>
      rw [hasInfix_mark_cons, Bool.or_eq_false_iff, ← ih, Unclosing, List.isChain_cons]
      refine and_congr_left fun _ => ?_
      cases t with
      | nil => simp
      | cons d t => simp

/-- Two texts make no closing mark if the first does not end with a star. -/
theorem Unclosing.append {t u : Text} (ht : Unclosing t) (hu : Unclosing u)
    (hlast : t.getLast? ≠ some '*') : Unclosing (t ++ u) := by
  refine List.IsChain.append ht hu ?_
  rintro c hc d - ⟨rfl, -⟩
  exact hlast hc

/-- A word has no closing mark. -/
theorem unclosing_of_isWord {w : Text} (hw : ∀ c ∈ w, isWord c = true) : Unclosing w := by
  induction w with
  | nil => exact .nil
  | cons c w ih =>
      obtain ⟨hc, hw⟩ := List.forall_mem_cons.mp hw
      refine List.IsChain.cons (ih hw) ?_
      rintro d - ⟨rfl, -⟩
      exact absurd hc (by decide)

/-- Behind a word nothing is escaped. -/
theorem contentEnd?_word {q : Char} (hq : isQuote q = true) {w : Text} (hne : w ≠ [])
    (hw : ∀ c ∈ w, isWord c = true) (escaped : Bool) :
    contentEnd? q escaped w = some false := by
  induction w generalizing escaped with
  | nil => exact absurd rfl hne
  | cons c w ih =>
      obtain ⟨hc, hw⟩ := List.forall_mem_cons.mp hw
      have hquote : (c == q) = false := by
        rw [beq_eq_false_iff_ne]
        rintro rfl
        exact absurd (hq.symm.trans (isQuote_eq_false_of_isWord hc)) nofun
      have hline : (c == '\n') = false := beq_eq_false_iff_ne.mpr (ne_of_isWord hc (by decide))
      have hback : (c == '\\') = false := beq_eq_false_iff_ne.mpr (ne_of_isWord hc (by decide))
      have hrest : contentEnd? q false w = some false := by
        by_cases hnil : w = []
        · rw [hnil, contentEnd?]
        · exact ih hnil hw false
      cases escaped with
      | true => rwa [contentEnd?]
      | false => simpa [contentEnd?, hquote, hline, hback] using hrest

namespace Respells

variable {t u v r : Text} {ws : List (Text × Text)}

/-- What is replaced stands in the text. -/
theorem mem (h : Respells t u ws) : ∀ c ∈ ws, c.1 <:+ t ∧ c.2.length < c.1.length := by
  induction h with
  | nil => exact List.forall_mem_nil _
  | same c hrest ih =>
      exact fun m hm => ⟨(ih m hm).1.trans (List.suffix_cons _ _), (ih m hm).2⟩
  | @word w v t u ws hw hrest ih =>
      have hpos := Nat.lt_of_lt_of_le (List.length_pos_iff.mpr hw.ne_nil) hw.length_le
      refine List.forall_mem_cons.mpr ⟨⟨List.suffix_refl _, ?_⟩, fun m hm => ?_⟩
      · show t.length < (w ++ t).length
        rw [List.length_append]
        omega
      · exact ⟨(ih m hm).1.trans (List.suffix_append _ _), (ih m hm).2⟩

/-- A text with other words in it is no longer, and it is the same if no word is replaced. -/
theorem length (h : Respells t u ws) : u.length ≤ t.length ∧ (u = t ↔ ws = []) := by
  induction h with
  | nil => simp
  | same c hrest ih => simpa using ih
  | @word w v t u ws hw hrest ih =>
      have hle := hw.length_le
      refine ⟨by simp only [List.length_append]; omega, fun heq => ?_, nofun⟩
      have hlength := congrArg List.length heq
      simp only [List.length_append] at hlength
      have hsame := (List.append_inj heq (by omega)).1
      exact absurd hsame hw.ne

/-- What is new are characters of words. -/
theorem mem_or (h : Respells t u ws) : ∀ d ∈ u, isWord d = true ∨ d ∈ t := by
  induction h with
  | nil => exact List.forall_mem_nil _
  | same c hrest ih =>
      refine List.forall_mem_cons.mpr ⟨Or.inr List.mem_cons_self, fun d hd => ?_⟩
      exact (ih d hd).imp_right (List.mem_cons_of_mem c)
  | word hw hrest ih =>
      refine List.forall_mem_append.mpr ⟨fun d hd => Or.inl (hw.target d hd), fun d hd => ?_⟩
      exact (ih d hd).imp_right (List.mem_append_right _)

/-- A text starts with a character that stays, or with a word that is replaced. -/
theorem cons_cases {c : Char} (h : Respells (c :: t) u ws) :
    (∃ s, u = c :: s ∧ Respells t s ws) ∨
      ∃ w v r s ks, Respelled w v ∧ c :: t = w ++ r ∧ u = v ++ s ∧ ws = (w ++ r, r) :: ks ∧
        Respells r s ks := by
  generalize hs : c :: t = s at h
  cases h with
  | nil => cases hs
  | same d hrest =>
      obtain ⟨rfl, rfl⟩ := List.cons.inj hs
      exact Or.inl ⟨_, rfl, hrest⟩
  | word hw hrest => exact Or.inr ⟨_, _, _, _, _, hw, rfl, rfl, rfl, hrest⟩

/-- A character that is in no word stays. -/
theorem cons_of_not_isWord {c : Char} (hc : isWord c = false) (h : Respells (c :: t) u ws) :
    ∃ s, u = c :: s ∧ Respells t s ws := by
  rcases h.cons_cases with hsame | ⟨w, v, r, s, ks, hw, hsplit, -, -, -⟩
  · exact hsame
  · cases w with
    | nil => exact absurd hw.length_le (by simpa using hw.ne_nil)
    | cons d w =>
        obtain rfl := (List.cons.inj hsplit).1
        exact absurd (hc.symm.trans (hw.source c List.mem_cons_self)) nofun

/-- The empty text is respelled as itself, with no words. -/
theorem eq_nil (h : Respells [] u ws) : u = [] ∧ ws = [] := by
  have hlength := h.length
  obtain rfl : u = [] := List.eq_nil_of_length_eq_zero (Nat.le_zero.mp hlength.1)
  exact ⟨rfl, hlength.2.mp rfl⟩

/-- A text starts with the same character if that is in no word. -/
theorem head? (h : Respells t u ws) {d : Char} (hd : isWord d = false) (hu : u.head? = some d) :
    t.head? = some d := by
  cases t with
  | nil =>
      rw [h.eq_nil.1] at hu
      cases hu
  | cons c t =>
      rcases h.cons_cases with ⟨s, rfl, -⟩ | ⟨w, v, r, s, ks, hw, -, rfl, -, -⟩
      · exact hu
      · obtain ⟨x, v, rfl⟩ := List.exists_cons_of_ne_nil hw.ne_nil
        obtain rfl : x = d := Option.some.inj hu
        exact absurd (hd.symm.trans (hw.target x List.mem_cons_self)) nofun

/-- **Words are replaced part by part**, if no word goes over the end of the first part. -/
theorem append (h : Respells t u ws) (ht : t = v ++ r)
    (hparted : v.getLast?.any isWord = true → r.head?.any isWord = false) :
    ∃ v' s cs ks, u = v' ++ s ∧ ws = cs.map (fun m => (m.1 ++ r, m.2 ++ r)) ++ ks ∧
      Respells v v' cs ∧ Respells r s ks := by
  induction h generalizing v with
  | nil =>
      obtain ⟨rfl, rfl⟩ := List.append_eq_nil_iff.mp ht.symm
      exact ⟨[], [], [], [], rfl, rfl, .nil, .nil⟩
  | @same t u ws c hrest ih =>
      cases v with
      | nil =>
          obtain rfl : c :: t = r := ht
          exact ⟨[], c :: u, [], ws, rfl, rfl, .nil, .same c hrest⟩
      | cons d v =>
          obtain ⟨rfl, rfl⟩ := List.cons.inj ht
          obtain ⟨v', s, cs, ks, rfl, rfl, hv, hr⟩ :=
            ih rfl fun hlast => hparted (any_getLast?_append hlast [c])
          exact ⟨c :: v', s, cs, ks, rfl, rfl, .same c hv, hr⟩
  | @word w v₀ t u ws hw hrest ih =>
      by_cases hle : r.length ≤ t.length
      · obtain ⟨v, rfl, rfl⟩ := exists_append_of_length_le ht hle
        obtain ⟨v', s, cs, ks, rfl, rfl, hv, hr⟩ :=
          ih rfl fun hlast => hparted (any_getLast?_append hlast w)
        exact ⟨v₀ ++ v', s, (w ++ v, v) :: cs, ks, by simp, by simp, .word hw hv, hr⟩
      · obtain rfl := eq_nil_of_word ht hw.source hparted hle
        obtain rfl : w ++ t = r := ht
        exact ⟨[], v₀ ++ u, [], _, rfl, rfl, .nil, .word hw hrest⟩

/-- No closing mark is made. -/
theorem unclosing (h : Respells t u ws) (ht : Unclosing t) : Unclosing u := by
  induction h with
  | nil => exact ht
  | same c hrest ih =>
      obtain ⟨hx, ht⟩ := List.isChain_cons.mp ht
      refine (ih ht).cons fun d hd hmark => hx d ?_ hmark
      exact hrest.head? (hmark.2 ▸ (by decide)) hd
  | word hw hrest ih =>
      refine (unclosing_of_isWord hw.target).append (ih ht.right_of_append) fun hlast => ?_
      exact absurd (hw.target '*' (List.mem_of_getLast? hlast)) (by decide)

/-- The content of a literal ends alike. -/
theorem contentEnd? {q : Char} (hq : isQuote q = true) (h : Respells t u ws) (escaped : Bool) :
    Sharpen.contentEnd? q escaped u = Sharpen.contentEnd? q escaped t := by
  induction h generalizing escaped with
  | nil => rfl
  | same c hrest ih => cases escaped <;> simp only [Sharpen.contentEnd?, ih]
  | word hw hrest ih =>
      have hne : _ ≠ [] := List.length_pos_iff.mp
        (Nat.lt_of_lt_of_le (List.length_pos_iff.mpr hw.ne_nil) hw.length_le)
      rw [contentEnd?_append, contentEnd?_append, contentEnd?_word hq hw.ne_nil hw.target,
        contentEnd?_word hq hne hw.source, Option.bind_some, Option.bind_some, ih]

end Respells

/-! ### Pieces -/

/-- No word goes over the end of a comment or literal. -/
theorem Piece.StandsBefore.not_isWord {p : Piece} {rest : Text} (h : p.StandsBefore rest)
    (hcode : p.isCode = false) (hlast : p.text.getLast?.any isWord = true) :
    rest.head?.any isWord = false := by
  cases p with
  | code => cases hcode
  | lineComment content =>
      cases hhead : rest.head? with
      | none => rfl
      | some c =>
          obtain rfl := h.2 c hhead
          decide
  | blockComment content closed =>
      cases closed with
      | true =>
          have hslash : (blockComment content true).text.getLast? = some '/' := by
            simp [text, List.getLast?_cons]
          rw [hslash] at hlast
          exact absurd hlast (by decide)
      | false =>
          obtain rfl := h.2 rfl
          rfl
  | literal q content stop =>
      cases stop with
      | none =>
          obtain rfl := h.2.2
          rfl
      | some c =>
          have hend : (literal q content (some c)).text.getLast? = some c := by
            simp [text, List.getLast?_cons]
          rw [hend] at hlast
          have hc : isWord c = true := hlast
          rcases h.2.2 with rfl | rfl
          · exact absurd (h.1.symm.trans (isQuote_eq_false_of_isWord hc)) (by decide)
          · exact absurd hc (by decide)

/-- All literals of a text are closed on their line. -/
def ClosesLiterals (t : Text) : Prop :=
  ∀ x ∈ pieces t, x.1.isLiteral = true → x.1.literal?.isSome = true

instance (t : Text) : Decidable (ClosesLiterals t) :=
  inferInstanceAs (Decidable (∀ x ∈ pieces t, x.1.isLiteral = true → x.1.literal?.isSome = true))

/-- The literal that such a text starts with ends on its line. -/
theorem ClosesLiterals.exists_content {p : Piece} {rest : Text}
    (h : ClosesLiterals (p.text ++ rest)) (hp : p.StandsBefore rest)
    (hliteral : p.isLiteral = true) :
    ∃ q content, p = .literal q content (some q) ∧ isQuote q = true ∧
      contentEnd? q false content = some false ∧ '\n' ∉ content := by
  obtain ⟨l, hl⟩ := Option.isSome_iff_exists.mp (h (p, rest) (mem_pieces_append hp) hliteral)
  obtain ⟨q, content, rfl, hq, hend, hline, -⟩ := Piece.literal?_eq_some hl hp
  exact ⟨q, content, rfl, hq, hend, hline⟩

/-- A word is code. -/
theorem code_of_isWord {w : Text} (hw : ∀ c ∈ w, isWord c = true) :
    ∀ c ∈ w, isQuote c = false ∧ c ≠ '/' :=
  fun c hc => ⟨isQuote_eq_false_of_isWord (hw c hc), ne_of_isWord (hw c hc) (by decide)⟩

namespace Respells

variable {t u r s v : Text} {ws cs : List (Text × Text)}

/-- A code character stands alone with other words behind it. -/
theorem code_standsBefore (h : Respells r s ws) {c : Char}
    (hc : (Piece.code c).StandsBefore r) : (Piece.code c).StandsBefore s := by
  refine ⟨hc.1, ?_⟩
  rw [← Bool.not_eq_true]
  intro hopens
  refine Bool.eq_false_iff.mp hc.2 ?_
  simp only [opensComment, Bool.and_eq_true, Bool.or_eq_true, beq_iff_eq] at hopens ⊢
  exact hopens.imp_right fun hhead =>
    hhead.imp (h.head? (by decide)) (h.head? (by decide))

/-- A line ends alike. -/
theorem newline (h : Respells r s ws) (hr : ∀ c ∈ r.head?, c = '\n') :
    ∀ c ∈ s.head?, c = '\n' := by
  cases r with
  | nil =>
      rw [h.eq_nil.1]
      exact nofun
  | cons d r =>
      obtain rfl := hr d rfl
      obtain ⟨s, rfl, -⟩ := h.cons_of_not_isWord (by decide)
      exact fun c hc => (Option.some.inj hc).symm

/-- A comment with other words is a comment. -/
theorem exists_comment {p : Piece} (h : Respells p.text v cs) (hrest : Respells r s ws)
    (hp : p.StandsBefore r) (hcode : p.isCode = false) (hliteral : p.isLiteral = false) :
    ∃ q : Piece, v = q.text ∧ q.StandsBefore s ∧ q.isLiteral = false := by
  cases p with
  | code => cases hcode
  | literal => cases hliteral
  | lineComment content =>
      obtain ⟨v₁, rfl, h₁⟩ := h.cons_of_not_isWord (by decide)
      obtain ⟨v, rfl, hcontent⟩ := h₁.cons_of_not_isWord (by decide)
      refine ⟨.lineComment v, rfl, ⟨fun hnewline => ?_, hrest.newline hp.2⟩, rfl⟩
      rcases hcontent.mem_or _ hnewline with hword | hmem
      · exact absurd hword (by decide)
      · exact hp.1 hmem
  | blockComment content closed =>
      obtain ⟨v₁, rfl, h₁⟩ := h.cons_of_not_isWord (by decide)
      obtain ⟨v, rfl, hinside⟩ := h₁.cons_of_not_isWord (by decide)
      cases closed with
      | true =>
          obtain ⟨v, m, cs, ks, rfl, -, hcontent, hmark⟩ :=
            hinside.append (v := content) (r := ['*', '/']) rfl fun _ => by decide
          obtain ⟨m₁, rfl, hmark₁⟩ := hmark.cons_of_not_isWord (by decide)
          obtain ⟨m, rfl, hnil⟩ := hmark₁.cons_of_not_isWord (by decide)
          obtain rfl := hnil.eq_nil.1
          have hunclosing := hcontent.unclosing (unclosing_iff.mpr hp.1)
          exact ⟨.blockComment v true, rfl, ⟨unclosing_iff.mp hunclosing, nofun⟩, rfl⟩
      | false =>
          obtain rfl := hp.2 rfl
          have hcontent : Respells content v cs := by simpa using hinside
          have hunclosing := hcontent.unclosing (unclosing_iff.mpr hp.1)
          refine ⟨.blockComment v false, by simp [Piece.text], ⟨?_, fun _ => ?_⟩, rfl⟩
          · exact unclosing_iff.mp hunclosing
          · exact hrest.eq_nil.1

/-- A literal with other words is a literal. -/
theorem exists_literal {q : Char} {content : Text} (h : Respells (q :: (content ++ [q])) v cs)
    (hq : isQuote q = true) (hend : Sharpen.contentEnd? q false content = some false)
    (hline : '\n' ∉ content) : ∃ w, v = q :: (w ++ [q]) ∧
      Sharpen.contentEnd? q false w = some false ∧ '\n' ∉ w := by
  have hword : isWord q = false := by
    rw [← Bool.not_eq_true]
    exact fun hword => absurd (hq.symm.trans (isQuote_eq_false_of_isWord hword)) nofun
  obtain ⟨v, rfl, hrest⟩ := h.cons_of_not_isWord hword
  obtain ⟨v, m, cs, ks, rfl, -, hcontent, hquote⟩ :=
    hrest.append (v := content) (r := [q]) rfl fun _ => hword
  obtain ⟨m, rfl, hnil⟩ := hquote.cons_of_not_isWord hword
  obtain rfl := hnil.eq_nil.1
  refine ⟨v, rfl, (hcontent.contentEnd? hq false).trans hend, fun hnewline => ?_⟩
  rcases hcontent.mem_or _ hnewline with hword | hmem
  · exact absurd hword (by decide)
  · exact hline hmem

/-- **Replacing words goes over a text piece by piece.** -/
theorem exists_advances (h : Respells t u ws) (hclosed : ClosesLiterals t) (hne : t ≠ []) :
    ∃ b ps qs cs, Rewriting.Advances (fun l k => l.length ≤ k.length) ⟨t, u, ws⟩ b ps qs cs ∧
      Respells b.source b.target b.changes := by
  obtain ⟨p, r, rfl, hp⟩ := exists_piece hne
  cases hcode : p.isCode with
  | true =>
      obtain ⟨c, rfl⟩ := exists_eq_code_of_isCode hcode
      rcases h.cons_cases with ⟨s, rfl, hrest⟩ | ⟨w, v, r', s, ks, hw, hsplit, rfl, rfl, hrest⟩
      · exact ⟨⟨r, s, ws⟩, _, _, [], Rewriting.advances_other (List.forall_mem_nil _)
          (fun m hm => (hrest.mem m hm).1.length_le) hp (hrest.code_standsBefore hp) rfl rfl, hrest⟩
      · have hnonempty : w ≠ [] := List.length_pos_iff.mp
          (Nat.lt_of_lt_of_le (List.length_pos_iff.mpr hw.ne_nil) hw.length_le)
        have hstarts : ∀ m ∈ [(w ++ r', r')], r'.length < m.1.length := by
          have hpos := List.length_pos_iff.mpr hnonempty
          rw [List.forall_mem_singleton, List.length_append]
          omega
        obtain ⟨ps, qs, hadvances, -⟩ := Rewriting.advances_code
          (R := fun l k => l.length ≤ k.length) hstarts (fun m hm => (hrest.mem m hm).1.length_le)
          (s := s) hnonempty (code_of_isWord hw.source) (code_of_isWord hw.target)
        refine ⟨⟨r', s, ks⟩, ps, qs, [(w ++ r', r')], ?_, hrest⟩
        rw [show Piece.text (.code c) ++ r = w ++ r' from hsplit]
        exact hadvances
  | false =>
      obtain ⟨v, s, cs, ks, rfl, rfl, hhere, hrest⟩ := h.append rfl (hp.not_isWord hcode)
      have hstarts : ∀ m ∈ cs.map (fun m => (m.1 ++ r, m.2 ++ r)), r.length < m.1.length ∧
          m.1.length ≤ (p.text ++ r).length := by
        rintro m hm
        obtain ⟨k, hk, rfl⟩ := List.mem_map.mp hm
        have hle := (hhere.mem k hk).1.length_le
        have hlt := (hhere.mem k hk).2
        simp only [List.length_append]
        omega
      have hbehind : ∀ m ∈ ks, m.1.length ≤ r.length :=
        fun m hm => (hrest.mem m hm).1.length_le
      refine ⟨⟨r, s, ks⟩, ?_⟩
      cases hliteral : p.isLiteral with
      | false =>
          obtain ⟨q, rfl, hq, hnone⟩ := hhere.exists_comment hrest hp hcode hliteral
          exact ⟨_, _, _, Rewriting.advances_other (fun m hm => (hstarts m hm).1) hbehind hp hq
            hliteral hnone, hrest⟩
      | true =>
          obtain ⟨q, content, rfl, hq, hend, hline⟩ := hclosed.exists_content hp hliteral
          obtain ⟨w, rfl, hend', hline'⟩ := hhere.exists_literal hq hend hline
          have hsame : w = content ↔ cs.map (fun m => (m.1 ++ r, m.2 ++ r)) = [] := by
            rw [List.map_eq_nil_iff, ← hhere.length.2]
            simp [Piece.text]
          exact ⟨_, _, _, Rewriting.advances_literal (fun m hm => (hstarts m hm).1) hbehind hq hend
            hline hend' hline' hhere.length.1 hsame (fun m hm => (hstarts m hm).2), hrest⟩

end Respells

/-- What stands behind pieces whose literals are closed has closed literals. -/
theorem ClosesLiterals.of_pieces {t r : Text} {ps : List (Piece × Text)} (h : ClosesLiterals t)
    (hps : pieces t = ps ++ pieces r) : ClosesLiterals r :=
  fun x hx => h x (hps ▸ List.mem_append_right ps hx)

/-- **The literals of converted code** are no longer, and they are those of the code if, and only
if, no word is replaced in one. -/
theorem literals_convertCode {t : Text} (h : ClosesLiterals t) :
    List.Forall₂ (fun l k : Text => l.length ≤ k.length) (literals (convertCode t)) (literals t) ∧
      (literals (convertCode t) = literals t ↔ Untouched (replacedIn t) (pieces t)) := by
  refine Rewriting.literals_of_advances
    (P := fun a => Respells a.source a.target a.changes ∧ ClosesLiterals a.source)
    (a := ⟨t, convertCode t, replacedIn t⟩) ?_ ?_ ⟨(convertsCode t).respells, h⟩
  · rintro ⟨t, u, ws⟩ ⟨hrespells, -⟩ rfl
    exact hrespells.eq_nil
  · rintro ⟨t, u, ws⟩ ⟨hrespells, hclosed⟩ hne
    obtain ⟨b, ps, qs, cs, hadvances, hrest⟩ := hrespells.exists_advances hclosed hne
    exact ⟨b, ps, qs, cs, hadvances, hrest, hclosed.of_pieces hadvances.reads⟩

/-! ### Where no word is replaced in a literal -/

/-- **A block comment that is converted on its own**: it has no quotes, or it ends its line. -/
def Separate (x : Piece × Text) : Prop :=
  x.1.isBlockComment = true → (∀ c ∈ x.1.text, isQuote c = false) ∨ ∀ c ∈ x.2.head?, c = '\n'

instance (x : Piece × Text) : Decidable (Separate x) :=
  inferInstanceAs (Decidable (_ → _ ∨ _))

/-- A literal that is closed on its line is cut off as one. -/
theorem literalRest?_of_contentEnd? {q : Char} {escaped : Bool} {content : Text}
    (hq : isQuote q = true) (oneLine : Bool) (h : contentEnd? q escaped content = some false)
    (hline : '\n' ∉ content) (r : Text) :
    literalRest? oneLine q ((if escaped then ['\\'] else []) ++ (content ++ q :: r)) = some r := by
  have hback : ('\\' == q) = false := by
    rw [beq_eq_false_iff_ne]
    rintro rfl
    exact absurd hq (by decide)
  fun_induction contentEnd? q escaped content with
  | case1 escaped =>
      obtain rfl := Option.some.inj h
      cases r <;> simp [literalRest?]
  | case2 c u ih =>
      obtain ⟨hc, hline⟩ := not_or.mp (List.mem_cons.not.mp hline)
      have hnot : (c == '\n') = false := by simpa using Ne.symm hc
      simpa [literalRest?, hback, hnot] using ih h hline
  | case3 => cases h
  | case4 c u hstop ih =>
      obtain ⟨hc, hline⟩ := not_or.mp (List.mem_cons.not.mp hline)
      have hrest := ih h hline
      by_cases hescape : c = '\\'
      · subst hescape
        simpa using hrest
      · obtain ⟨d, v, hv⟩ : ∃ d v, u ++ q :: r = d :: v :=
          List.exists_cons_of_ne_nil (by simp)
        have hquote : (c == q) = false := by
          rw [beq_eq_false_iff_ne]
          rintro rfl
          exact hstop (by simp)
        simp only [beq_eq_false_iff_ne.mpr hescape, Bool.false_eq_true, if_false, List.nil_append,
          hv] at hrest
        simp [literalRest?, hv, hquote, hescape, Ne.symm hc, hrest]

/-- A literal that is closed on its line is one for the conversion as well. -/
theorem isLineLiteral_of_contentEnd? {q : Char} {content : Text} (hq : isQuote q = true)
    (h : contentEnd? q false content = some false) (hline : '\n' ∉ content) :
    IsLineLiteral (q :: (content ++ [q])) :=
  ⟨q, content, hq, literalRest?_of_contentEnd? hq true h hline [], rfl⟩

/-- Code is converted on its own up to the end of a comment. -/
theorem Separate.parted {p : Piece} {rest : Text} (h : Separate (p, rest))
    (hp : p.StandsBefore rest) (hcode : p.isCode = false) (hliteral : p.isLiteral = false) :
    Parted p.text rest := by
  cases p with
  | code => cases hcode
  | literal => cases hliteral
  | lineComment content => exact parted_of_newline _ hp.2
  | blockComment content closed =>
      cases closed with
      | false =>
          obtain rfl := hp.2 rfl
          exact parted_of_newline _ nofun
      | true =>
          rcases h rfl with hquoteless | hline
          · refine parted_of_quoteless hquoteless ?_ rest
            have hslash : (Piece.blockComment content true).text.getLast? = some '/' := by
              simp [Piece.text, List.getLast?_cons]
            rw [hslash]
            decide
          · exact parted_of_newline _ hline

/-- A step over text whose literals are closed and whose block comments are separate: what is
replaced there starts in code or in a comment. -/
theorem exists_replacedIn_append {t : Text} (hclosed : ClosesLiterals t)
    (hseparate : ∀ x ∈ pieces t, Separate x) (hne : t ≠ []) :
    ∃ ps r cs, r.length < t.length ∧ pieces t = ps ++ pieces r ∧ replacedIn t = cs ++ replacedIn r ∧
      (∀ x ∈ ps, r.length ≤ x.2.length) ∧ (∀ c ∈ cs, r.length < c.1.length) ∧
      Untouched cs ps := by
  obtain ⟨p, rest, rfl, hp⟩ := exists_piece hne
  have hshort := p.length_lt_append rest
  cases hliteral : p.isLiteral with
  | true =>
      obtain ⟨q, content, rfl, hq, hend, hline⟩ := hclosed.exists_content hp hliteral
      have hlineLiteral := isLineLiteral_of_contentEnd? hq hend hline
      exact ⟨[(.literal q content (some q), rest)], rest, [], hshort, pieces_append hp,
        replacedIn_literal hlineLiteral rest, by simp, List.forall_mem_nil _,
        List.forall_mem_nil _⟩
  | false =>
      cases hcode : p.isCode with
      | false =>
          have hparted := (hseparate _ (mem_pieces_append hp)).parted hp hcode hliteral
          have hreplaced := ((convertsCode _).append rfl hparted).2
          refine ⟨[(p, rest)], rest, _, hshort, pieces_append hp, hreplaced, by simp,
            fun c hc => ?_, untouched_of_isLiteral (List.forall_mem_singleton.mpr hliteral)⟩
          obtain ⟨k, hk, rfl⟩ := List.mem_map.mp hc
          have hlt := ((convertsCode p.text).respells.mem k hk).2
          simp only [List.length_append]
          omega
      | true =>
          obtain ⟨c, rfl⟩ := exists_eq_code_of_isCode hcode
          cases hword : isWord c with
          | false =>
              have hnone := behindLiteral?_of_not_isQuote hp.1 rest
              exact ⟨[(.code c, rest)], rest, [], hshort, pieces_append hp,
                replacedIn_cons hword hnone, by simp, List.forall_mem_nil _,
                List.forall_mem_nil _⟩
          | true =>
              obtain ⟨w, r, hsplit, hwne, hw, hr⟩ := exists_word (t := rest) hword
              obtain ⟨ps, hps, -, hcodes⟩ := pieces_append_code (code_of_isWord hw) r
              have hpos := List.length_pos_iff.mpr hwne
              rw [show (Piece.code c).text ++ rest = w ++ r from hsplit]
              refine ⟨ps, r, replacedWord w r, ?_, hps, replacedIn_word hwne hw hr,
                fun x hx => (hcodes x hx).1, length_lt_of_mem_replacedWord hwne,
                untouched_of_isLiteral fun x hx => isLiteral_of_isCode (hcodes x hx).2⟩
              rw [List.length_append]
              omega

/-- **No word is replaced in a literal** if block comments have no quotes or end their line. -/
theorem untouched_replacedIn {t : Text} (hclosed : ClosesLiterals t)
    (hseparate : ∀ x ∈ pieces t, Separate x) : Untouched (replacedIn t) (pieces t) := by
  induction hlength : t.length using Nat.strongRecOn generalizing t with
  | ind n ih =>
      by_cases hne : t = []
      · subst hne
        rw [pieces_nil]
        exact untouched_of_isLiteral (List.forall_mem_nil _)
      · obtain ⟨ps, r, cs, hshort, hpieces, hreplaced, hends, hstarts, hhere⟩ :=
          exists_replacedIn_append hclosed hseparate hne
        have hrest := ih r.length (hlength ▸ hshort) (hclosed.of_pieces hpieces)
          (fun x hx => hseparate x (hpieces ▸ List.mem_append_right ps hx)) rfl
        rw [hpieces, hreplaced]
        refine (untouched_append hends (fun x hx => (mem_pieces hx).1.length_le) hstarts
          fun m hm => ?_).mpr ⟨hhere, hrest⟩
        exact ((convertsCode r).respells.mem m hm).1.length_le

end Sharpen
