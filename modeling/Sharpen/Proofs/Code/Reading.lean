import Mathlib.Data.List.Forall2
import Sharpen.Proofs.Code.CodeOnly
import Sharpen.Proofs.Decl.Conserved

/-!
# The Reading of a Program Text

A program text is read from left to right into pieces: comments up to the end of their line,
comments up to their closing mark, literals up to their quote or the end of the line, and single
characters of code. Where a piece ends is said by what it may hold and by what follows it, not by a
scan.

This reading is the measure for everything that treats comments and literals. It is stated as a
relation between a text and a row of pieces, and two facts make it usable: every text reads as some
pieces, and as no others. The masked copy, which is computed by an automaton over the characters, is
then shown to be what the pieces show, one after the other.

## Main definitions

* `Piece` — a piece; `Piece.StandsBefore` says where it may end.
* `Reads` — a text is read into pieces; `exists_reads_iff` says that this is so in exactly one way.
* `contentEnd?` — whether the content of a literal ends behind a backslash, which takes the next
  character.
* `Piece.text` — the characters of a piece.
* `cutContent` — the content of a literal and the text from what stops it.

## Main results

* `maskFrom_piece` — what a piece leaves in the masked copy, which is `Piece.shown`.
* `maskCode_exact` — the masked copy of a text, piece by piece.
* `Reads.maskFrom_eq` — a text that ends with a newline is masked piece by piece.
-/

namespace Sharpen

/-- A piece of a program text. -/
inductive Piece where
  /-- A character that is part of nothing longer. -/
  | code (c : Char)
  /-- A comment up to the end of its line. -/
  | lineComment (content : Text)
  /-- A comment up to its closing mark, or to the end of the text if there is none. -/
  | blockComment (content : Text) (closed : Bool)
  /-- A literal up to the quote or newline that stops it, or to the end of the text. -/
  | literal (quote : Char) (content : Text) (stop : Option Char)
deriving DecidableEq, Repr

/-- Whether the content of a literal ends behind a backslash, which takes the next character. There
is no answer if a quote or a newline without a backslash before it stops the literal earlier. -/
def contentEnd? (quote : Char) : (escaped : Bool) → Text → Option Bool
  | escaped, [] => some escaped
  | true, _ :: r => contentEnd? quote false r
  | false, c :: r => if c == quote || c == '\n' then none else contentEnd? quote (c == '\\') r

namespace Piece

/-- The characters of a piece. -/
def text : Piece → Text
  | code c => [c]
  | lineComment content => '/' :: '/' :: content
  | blockComment content closed => '/' :: '*' :: (content ++ if closed then ['*', '/'] else [])
  | literal quote content stop => quote :: (content ++ stop.toList)

/-- What is to be seen of a piece: code, the quotes of a literal and all newlines. -/
def shown : Piece → Text
  | code c => [c]
  | lineComment content => ' ' :: ' ' :: content.map hide
  | blockComment content closed =>
    ' ' :: ' ' :: (content.map hide ++ if closed then [' ', ' '] else [])
  | literal quote content stop => quote :: (content.map hide ++ stop.toList)

/-- **Where a piece may end**, by the text that follows it. -/
def StandsBefore (rest : Text) : Piece → Prop
  | code c => isQuote c = false ∧ opensComment c rest = false
  | lineComment content => '\n' ∉ content ∧ ∀ c ∈ rest.head?, c = '\n'
  | blockComment content closed => content.hasInfix "*/" = false ∧ (closed = false → rest = [])
  | literal quote content (some c) =>
    isQuote quote = true ∧ contentEnd? quote false content = some false ∧ (c = quote ∨ c = '\n')
  | literal quote content none =>
    isQuote quote = true ∧ (contentEnd? quote false content).isSome = true ∧ rest = []

/-- No piece is empty. -/
theorem text_ne_nil (p : Piece) : p.text ≠ [] := by
  cases p <;> exact List.cons_ne_nil _ _

/-- What stands behind a piece is shorter than the text with the piece. -/
theorem length_lt_append (p : Piece) (rest : Text) : rest.length < (p.text ++ rest).length := by
  have hpos := List.length_pos_iff.mpr p.text_ne_nil
  rw [List.length_append]
  omega

end Piece

/-- **The reading of a text into pieces.** -/
def Reads (t : Text) : List Piece → Prop
  | [] => t = []
  | p :: ps => ∃ rest, t = p.text ++ rest ∧ p.StandsBefore rest ∧ Reads rest ps

/-! ### The first piece -/

/-- The content of a literal and the text from what stops it. -/
def cutContent (quote : Char) : (escaped : Bool) → Text → Text × Text
  | _, [] => ([], [])
  | true, c :: r => (c :: (cutContent quote false r).1, (cutContent quote false r).2)
  | false, c :: r =>
    if c == quote || c == '\n' then ([], c :: r)
    else (c :: (cutContent quote (c == '\\') r).1, (cutContent quote (c == '\\') r).2)

/-- The piece that a text starts with, and the text behind it. -/
def firstPiece? : Text → Option (Piece × Text)
  | [] => none
  | c :: r =>
    if isQuote c then
      let (content, rest) := cutContent c false r
      some (.literal c content rest.head?, rest.tail)
    else if c == '/' && r.head? == some '/' then
      some (.lineComment (r.tail.takeWhile (· != '\n')), r.tail.dropWhile (· != '\n'))
    else if c == '/' && r.head? == some '*' then
      match Text.find? "*/" r.tail with
      | some i => some (.blockComment (r.tail.take i) true, r.tail.drop (i + 2))
      | none => some (.blockComment r.tail false, [])
    else some (.code c, r)

/-- What stops a literal, if anything does. -/
def StopsLiteral (quote : Char) (content : Text) (escaped : Bool) (rest : Text) : Prop :=
  (∃ c r, rest = c :: r ∧ contentEnd? quote escaped content = some false ∧
    (c = quote ∨ c = '\n')) ∨
  ((contentEnd? quote escaped content).isSome = true ∧ rest = [])

/-- Cutting off the content of a literal leaves the text, and the literal stops where the content
ends. -/
theorem cutContent_spec (quote : Char) (escaped : Bool) (t : Text) :
    (cutContent quote escaped t).1 ++ (cutContent quote escaped t).2 = t ∧
      StopsLiteral quote (cutContent quote escaped t).1 escaped (cutContent quote escaped t).2 := by
  fun_induction cutContent quote escaped t with
  | case1 escaped => exact ⟨rfl, Or.inr ⟨rfl, rfl⟩⟩
  | case2 c r ih => exact ⟨congrArg (c :: ·) ih.1, ih.2⟩
  | case3 c r hstop =>
      refine ⟨rfl, Or.inl ⟨c, r, rfl, rfl, ?_⟩⟩
      simpa using hstop
  | case4 c r hstop ih =>
      refine ⟨congrArg (c :: ·) ih.1, ?_⟩
      rw [StopsLiteral, contentEnd?, if_neg hstop]
      exact ih.2

/-- The content that a literal stops behind is the one that is cut off. -/
theorem cutContent_append {quote : Char} {escaped : Bool} {content rest : Text}
    (h : StopsLiteral quote content escaped rest) :
    cutContent quote escaped (content ++ rest) = (content, rest) := by
  fun_induction contentEnd? quote escaped content with
  | case1 escaped =>
      rcases h with ⟨c, r, rfl, hescaped, hstop⟩ | ⟨-, rfl⟩
      · obtain rfl : escaped = false := Option.some.inj hescaped
        simp [cutContent, hstop]
      · rfl
  | case2 c r ih =>
      rw [List.cons_append, cutContent, ih h]
  | case3 c r hstop =>
      rcases h with ⟨_, _, -, hnone, -⟩ | ⟨hnone, -⟩
      · rw [contentEnd?, if_pos hstop] at hnone
        cases hnone
      · rw [contentEnd?, if_pos hstop] at hnone
        cases hnone
  | case4 c r hstop ih =>
      rw [StopsLiteral, contentEnd?, if_neg hstop] at h
      rw [List.cons_append, cutContent, if_neg hstop, ih h]

/-- Where there is a closing mark, a text is cut at the first one. -/
theorem find?_mark_eq_some {t : Text} {i : Nat} (h : Text.find? "*/" t = some i) :
    t = t.take i ++ '*' :: '/' :: t.drop (i + 2) ∧ Text.hasInfix (t.take i) "*/" = false := by
  obtain ⟨u, v, ht, hu⟩ := exists_first_occurrence (p := "*/") (t := t) (by decide)
    (by rw [Text.hasInfix, h]; rfl)
  replace ht : t = u ++ '*' :: '/' :: v := ht
  have hlength : u.length = i := by
    rw [ht, find?_closeMark hu] at h
    exact Option.some.inj h
  have hlong : t = (u ++ ['*', '/']) ++ v := by simp [ht]
  have htake : t.take i = u := by rw [ht, ← hlength, List.take_left]
  have hdrop : t.drop (i + 2) = v := by
    rw [hlong]
    exact List.drop_left' (by simp [hlength])
  rw [htake, hdrop]
  exact ⟨ht, hu⟩

/-- A text starts with some piece. -/
theorem exists_piece {t : Text} (h : t ≠ []) :
    ∃ p rest, t = Piece.text p ++ rest ∧ p.StandsBefore rest := by
  obtain ⟨c, r, rfl⟩ := List.exists_cons_of_ne_nil h
  by_cases hquote : isQuote c = true
  · obtain ⟨heq, hstop⟩ := cutContent_spec c false r
    rcases hstop with ⟨d, rest, hd, hend, hstop⟩ | ⟨hend, hnil⟩
    · refine ⟨.literal c (cutContent c false r).1 (some d), rest, ?_, hquote, hend, hstop⟩
      rw [hd] at heq
      conv_lhs => rw [← heq]
      simp [Piece.text]
    · refine ⟨.literal c (cutContent c false r).1 none, [], ?_, hquote, hend, rfl⟩
      rw [hnil, List.append_nil] at heq
      conv_lhs => rw [← heq]
      simp [Piece.text]
  by_cases hopens : opensComment c r = true
  · simp only [opensComment, Bool.and_eq_true, Bool.or_eq_true, beq_iff_eq] at hopens
    obtain ⟨rfl, hhead⟩ := hopens
    rcases hhead with hhead | hhead
    · obtain ⟨r, rfl⟩ := List.head?_eq_some_iff.mp hhead
      refine ⟨.lineComment (r.takeWhile (· != '\n')), r.dropWhile (· != '\n'), ?_, ?_, ?_⟩
      · simp [Piece.text]
      · intro hmem
        simpa using List.mem_takeWhile_imp hmem
      · intro d hd
        have hnot := List.head?_dropWhile_not (· != '\n') r
        rw [hd] at hnot
        simpa using hnot
    · obtain ⟨r, rfl⟩ := List.head?_eq_some_iff.mp hhead
      cases hfind : Text.find? "*/" r with
      | some i =>
          obtain ⟨heq, hfree⟩ := find?_mark_eq_some hfind
          refine ⟨.blockComment (r.take i) true, r.drop (i + 2), ?_, hfree, fun h => by cases h⟩
          conv_lhs => rw [heq]
          simp [Piece.text]
      | none =>
          refine ⟨.blockComment r false, [], by simp [Piece.text], ?_, fun _ => rfl⟩
          rw [Text.hasInfix, hfind]
          rfl
  · exact ⟨.code c, r, rfl, by simpa using hquote, by simpa using hopens⟩

/-- A text starts with one piece only. -/
theorem firstPiece?_append {p : Piece} {rest : Text} (h : p.StandsBefore rest) :
    firstPiece? (p.text ++ rest) = some (p, rest) := by
  have hslash : isQuote '/' = false := by decide
  cases p with
  | code c =>
      obtain ⟨hquote, hopens⟩ := h
      rw [opensComment, Bool.and_or_distrib_left, Bool.or_eq_false_iff] at hopens
      simp only [Piece.text, List.cons_append, List.nil_append, firstPiece?, hquote, hopens.1,
        hopens.2, Bool.false_eq_true, if_false]
  | lineComment content =>
      obtain ⟨hline, hrest⟩ := h
      have hcontent : ∀ c ∈ content, (c != '\n') = true := by
        intro c hc
        rw [bne_iff_ne]
        rintro rfl
        exact hline hc
      have hend : rest.takeWhile (· != '\n') = [] ∧ rest.dropWhile (· != '\n') = rest := by
        cases rest with
        | nil => exact ⟨rfl, rfl⟩
        | cons d r => simp [hrest d rfl]
      simp [Piece.text, firstPiece?, hslash, List.takeWhile_append_of_pos hcontent,
        List.dropWhile_append_of_pos hcontent, hend.1, hend.2]
  | blockComment content closed =>
      obtain ⟨hfree, hopen⟩ := h
      cases closed with
      | true =>
          have hfind : Text.find? ['*', '/'] (content ++ '*' :: '/' :: rest) =
              some content.length :=
            find?_closeMark hfree rest
          have htake : (content ++ '*' :: '/' :: rest).take content.length = content :=
            List.take_left
          have hdrop : (content ++ '*' :: '/' :: rest).drop (content.length + 2) = rest := by
            rw [show content ++ '*' :: '/' :: rest = (content ++ ['*', '/']) ++ rest by simp]
            exact List.drop_left' (by simp)
          simp [Piece.text, firstPiece?, hslash, hfind, htake, hdrop]
      | false =>
          obtain rfl := hopen rfl
          have hfind : Text.find? ['*', '/'] content = none :=
            Option.isNone_iff_eq_none.mp (Option.isSome_eq_false_iff.mp hfree)
          simp [Piece.text, firstPiece?, hslash, hfind]
  | literal quote content stop =>
      cases stop with
      | some c =>
          obtain ⟨hquote, hend, hstop⟩ := h
          have hcut : cutContent quote false (content ++ c :: rest) = (content, c :: rest) :=
            cutContent_append (Or.inl ⟨c, rest, rfl, hend, hstop⟩)
          simp [Piece.text, firstPiece?, hquote, hcut]
      | none =>
          obtain ⟨hquote, hend, rfl⟩ := h
          have hcut : cutContent quote false (content ++ []) = (content, []) :=
            cutContent_append (Or.inr ⟨hend, rfl⟩)
          rw [List.append_nil] at hcut
          simp only [Piece.text, Option.toList_none, List.append_nil, firstPiece?, hquote, if_true]
          rw [hcut]
          rfl

/-! ### The whole text -/

/-- Every text reads as some pieces. -/
theorem exists_reads (t : Text) : ∃ ps, Reads t ps := by
  induction hlength : t.length using Nat.strong_induction_on generalizing t with
  | _ n ih =>
      by_cases hnil : t = []
      · exact ⟨[], hnil⟩
      · obtain ⟨p, rest, rfl, hp⟩ := exists_piece hnil
        obtain ⟨ps, hps⟩ := ih rest.length (hlength ▸ p.length_lt_append rest) rest rfl
        exact ⟨p :: ps, rest, rfl, hp, hps⟩

/-- It reads as no others. -/
theorem Reads.unique {t : Text} {ps ps' : List Piece} (h : Reads t ps) (h' : Reads t ps') :
    ps' = ps := by
  induction ps generalizing t ps' with
  | nil =>
      cases ps' with
      | nil => rfl
      | cons p' ps' =>
          obtain ⟨rest, ht, -, -⟩ := h'
          exact absurd ((List.append_eq_nil_iff.mp (ht.symm.trans h)).1) p'.text_ne_nil
  | cons p ps ih =>
      obtain ⟨rest, rfl, hp, hps⟩ := h
      cases ps' with
      | nil => exact absurd ((List.append_eq_nil_iff.mp h').1) p.text_ne_nil
      | cons p' ps' =>
          obtain ⟨rest', ht, hp', hps'⟩ := h'
          have hfirst := firstPiece?_append hp
          rw [ht, firstPiece?_append hp', Option.some.injEq, Prod.mk.injEq] at hfirst
          obtain ⟨rfl, rfl⟩ := hfirst
          rw [ih hps hps']

/-- **A text is read in exactly one way.** -/
theorem exists_reads_iff (t : Text) : ∃ ps, ∀ ps', Reads t ps' ↔ ps' = ps := by
  obtain ⟨ps, hps⟩ := exists_reads t
  exact ⟨ps, fun ps' => ⟨hps.unique, fun h => h ▸ hps⟩⟩

/-! ### What is masked -/

/-- The zone inside of a literal. -/
def contentZone (quote : Char) (escaped : Bool) : Zone :=
  if escaped then .escaped quote else .literal quote

/-- Everything but a newline is hidden behind a space. -/
theorem hide_of_ne {c : Char} (h : c ≠ '\n') : hide c = ' ' := by
  simp [hide, h]

/-- A character of the content, with something behind it. -/
theorem maskFrom_literal_plain {quote c : Char} (h : ¬ (c == quote || c == '\n') = true) {r : Text}
    (hr : r ≠ []) : maskFrom (.literal quote) (c :: r)
      = hide c :: maskFrom (contentZone quote (c == '\\')) r := by
  have hline : c ≠ '\n' := by
    rintro rfl
    exact h (by simp)
  rw [maskFrom_literal_cons_of_ne hr, if_neg h, hide_of_ne hline, zoneInLiteral, if_neg h]
  rfl

/-- A literal that is stopped is hidden up to what stops it. -/
theorem maskFrom_stopped {quote c : Char} {escaped : Bool} {content : Text}
    (h : contentEnd? quote escaped content = some false) (hstop : c = quote ∨ c = '\n')
    (rest : Text) : maskFrom (contentZone quote escaped) (content ++ c :: rest)
      = content.map hide ++ c :: maskFrom .code rest := by
  fun_induction contentEnd? quote escaped content with
  | case1 escaped =>
      obtain rfl : escaped = false := Option.some.inj h
      have hstop' : (c == quote || c == '\n') = true := by simpa using hstop
      cases rest with
      | nil => simp [contentZone, maskFrom]
      | cons d rest => simp [contentZone, maskFrom, hstop']
  | case2 x r ih =>
      have hzone : contentZone quote true = .escaped quote := rfl
      rw [List.cons_append, hzone, maskFrom_escaped_cons_of_ne (by simp), List.map_cons,
        List.cons_append]
      exact congrArg _ (ih h)
  | case3 => cases h
  | case4 x r hplain ih =>
      have hzone : contentZone quote false = .literal quote := rfl
      rw [List.cons_append, hzone, maskFrom_literal_plain hplain (by simp), ih h, List.map_cons,
        List.cons_append]

/-- A literal that is not stopped is hidden up to the newline that ends the text. -/
theorem maskFrom_unstopped {quote : Char} {escaped : Bool} {content : Text}
    (h : (contentEnd? quote escaped content).isSome = true)
    (hend : ∀ c ∈ content.getLast?, c = '\n') :
    maskFrom (contentZone quote escaped) content = content.map hide := by
  have hlast : ∀ {x : Char} {r : Text}, (∀ c ∈ (x :: r).getLast?, c = '\n') → r ≠ [] →
      ∀ c ∈ r.getLast?, c = '\n' := by
    intro x r hend hr c hc
    rw [← List.getLast?_cons_of_ne_nil hr] at hc
    exact hend c hc
  fun_induction contentEnd? quote escaped content with
  | case1 escaped => simp [maskFrom]
  | case2 x r ih =>
      have hzone : contentZone quote true = .escaped quote := rfl
      by_cases hr : r = []
      · subst hr
        rw [hend x rfl, hzone, maskFrom]
        rfl
      · rw [hzone, maskFrom_escaped_cons_of_ne hr, List.map_cons]
        exact congrArg _ (ih h (hlast hend hr))
  | case3 => cases h
  | case4 x r hplain ih =>
      have hzone : contentZone quote false = .literal quote := rfl
      by_cases hr : r = []
      · subst hr
        exact absurd (by simp [hend x rfl]) hplain
      · rw [hzone, maskFrom_literal_plain hplain hr, ih h (hlast hend hr), List.map_cons]

/-- A comment up to the end of its line is hidden. -/
theorem maskFrom_lineComment_append {content rest : Text} (hline : '\n' ∉ content)
    (hrest : ∀ c ∈ rest.head?, c = '\n') :
    maskFrom .lineComment (content ++ rest) = content.map hide ++ maskFrom .code rest := by
  induction content with
  | nil =>
      cases rest with
      | nil => rfl
      | cons c r =>
          obtain rfl := hrest c rfl
          rfl
  | cons x content ih =>
      obtain ⟨hx, hline⟩ := not_or.mp (List.mem_cons.not.mp hline)
      have hnot : (x == '\n') = false := by simpa using Ne.symm hx
      rw [List.cons_append, maskFrom, hnot, List.map_cons, List.cons_append]
      exact congrArg _ (ih hline)

/-- The content of a comment is hidden up to its closing mark. -/
theorem maskFrom_blockComment_append {content rest : Text} (hfree : content.hasInfix "*/" = false)
    (hrest : rest.head? ≠ some '/') :
    maskFrom .blockComment (content ++ rest) = content.map hide ++ maskFrom .blockComment rest := by
  induction content with
  | nil => rfl
  | cons x content ih =>
      obtain ⟨hmark, hfree⟩ := hasInfix_cons_eq_false hfree
      rw [List.cons_append, maskFrom, ih hfree, List.map_cons, List.cons_append]
      rintro r rfl hr
      cases content with
      | nil => exact hrest (List.head?_eq_some_iff.mpr ⟨r, hr⟩)
      | cons y content => exact hmark ⟨rfl, congrArg some (List.cons.inj hr).1⟩

/-- **What a piece leaves in the masked copy.** A literal without an end has to end with a newline,
for the last character of a text is not hidden in it. -/
theorem maskFrom_piece {p : Piece} {rest : Text} (h : p.StandsBefore rest)
    (hend : (p.text ++ rest).getLast? = some '\n') :
    maskFrom .code (p.text ++ rest) = p.shown ++ maskFrom .code rest := by
  cases p with
  | code c =>
      obtain ⟨hquote, hopens⟩ := h
      change maskFrom .code (c :: rest) = c :: maskFrom .code rest
      rw [maskFrom_code_cons_of_opens hopens, hquote]
      rfl
  | lineComment content =>
      exact congrArg (fun u => ' ' :: ' ' :: u) (maskFrom_lineComment_append h.1 h.2)
  | blockComment content closed =>
      obtain ⟨hfree, hopen⟩ := h
      cases closed with
      | true =>
          have hmask : maskFrom .blockComment (content ++ '*' :: '/' :: rest) = _ :=
            maskFrom_blockComment_append hfree (by simp)
          simpa [Piece.text, Piece.shown, maskFrom] using hmask
      | false =>
          obtain rfl := hopen rfl
          have hmask : maskFrom .blockComment (content ++ []) = _ :=
            maskFrom_blockComment_append hfree (by simp)
          simpa [Piece.text, Piece.shown, maskFrom] using hmask
  | literal quote content stop =>
      have hopens : ∀ r, opensComment quote r = false := by
        intro r
        have hne : quote ≠ '/' := by
          rintro rfl
          cases stop <;> exact absurd h.1 (by decide)
        simp [opensComment, hne]
      have hquote : isQuote quote = true := by cases stop <;> exact h.1
      have hstart : ∀ r, maskFrom .code (quote :: r) = quote :: maskFrom (.literal quote) r := by
        intro r
        rw [maskFrom_code_cons_of_opens (hopens r), hquote]
        rfl
      cases stop with
      | some c =>
          have hmask := maskFrom_stopped h.2.1 h.2.2 rest
          have hzone : contentZone quote false = .literal quote := rfl
          rw [hzone] at hmask
          simp [Piece.text, Piece.shown, hstart, hmask]
      | none =>
          obtain ⟨-, hopen, rfl⟩ := h
          have hlast : ∀ c ∈ content.getLast?, c = '\n' := by
            intro c hc
            have hne : content ≠ [] := by
              rintro rfl
              cases hc
            simp only [Piece.text, Option.toList_none, List.append_nil,
              List.getLast?_cons_of_ne_nil hne] at hend
            exact Option.some.inj ((Option.mem_def.mp hc).symm.trans hend)
          have hmask := maskFrom_unstopped hopen hlast
          have hzone : contentZone quote false = .literal quote := rfl
          rw [hzone] at hmask
          simp [Piece.text, Piece.shown, hstart, hmask, maskFrom]

/-- **A text that ends with a newline is masked piece by piece.** -/
theorem Reads.maskFrom_eq {t : Text} {ps : List Piece} (h : Reads t ps)
    (hend : ∀ c ∈ t.getLast?, c = '\n') : maskFrom .code t = ps.flatMap Piece.shown := by
  induction ps generalizing t with
  | nil =>
      obtain rfl := h
      rfl
  | cons p ps ih =>
      obtain ⟨rest, rfl, hp, hps⟩ := h
      have hne : p.text ++ rest ≠ [] := by simp [p.text_ne_nil]
      have hlast : (p.text ++ rest).getLast? = some '\n' := by
        rw [List.getLast?_eq_some_getLast hne] at hend ⊢
        exact congrArg some (hend _ rfl)
      rw [maskFrom_piece hp hlast, List.flatMap_cons, ih hps fun c hc => ?_]
      refine hend c ?_
      rw [List.getLast?_append, Option.mem_def.mp hc]
      rfl

/-- A masked character is hidden, or it is there as it is. -/
theorem forall₂_maskFrom (z : Zone) (t : Text) :
    List.Forall₂ (fun c m => (m = '\n' ↔ c = '\n') ∧ (m = c ∨ m = ' ')) t (maskFrom z t) := by
  have hhide : ∀ c, (hide c = '\n' ↔ c = '\n') ∧ (hide c = c ∨ hide c = ' ') := by
    intro c
    by_cases hc : c = '\n' <;> simp [hide, hc]
  fun_induction maskFrom z t <;> simp_all

/-- **The masked copy is exact.** It has a character for each one of the text: newlines for
newlines, and for any other character that character or a space. In a text that ends with a newline,
which is read into pieces in one way, the copy shows of each piece what `Piece.shown` says: all of
the code and the quotes of literals, and nothing of comments and of what is inside of literals. -/
theorem maskCode_exact (t : Text) :
    List.Forall₂ (fun c m => (m = '\n' ↔ c = '\n') ∧ (m = c ∨ m = ' ')) t (maskCode t) ∧
      ∃ ps, (∀ ps', Reads t ps' ↔ ps' = ps) ∧
        (t.getLast? = some '\n' → maskCode t = ps.flatMap Piece.shown) := by
  obtain ⟨ps, hps⟩ := exists_reads_iff t
  refine ⟨forall₂_maskFrom .code t, ps, hps, fun hend => ?_⟩
  refine ((hps ps).mpr rfl).maskFrom_eq fun c hc => ?_
  exact Option.some.inj ((Option.mem_def.mp hc).symm.trans hend)

/-- A literal with an escaped quote, a closed comment, a literal that the newline stops and a
comment up to the end of the line. -/
theorem maskCode_exact_escapes : ∃ ps : List Piece,
    Reads "\"a\\\"b\"/*c*/'x\n//\"\n" ps ∧
      ps = [.literal '"' "a\\\"b" (some '"'), .blockComment "c" true, .literal '\'' "x" (some '\n'),
        .lineComment "\"", .code '\n'] ∧
      maskCode "\"a\\\"b\"/*c*/'x\n//\"\n" = "\"    \"     ' \n   \n" := by
  obtain ⟨-, ps, hps, hmask⟩ := maskCode_exact "\"a\\\"b\"/*c*/'x\n//\"\n"
  have hreads : Reads "\"a\\\"b\"/*c*/'x\n//\"\n"
      [.literal '"' "a\\\"b" (some '"'), .blockComment "c" true, .literal '\'' "x" (some '\n'),
        .lineComment "\"", .code '\n'] :=
    ⟨_, rfl, ⟨rfl, rfl, Or.inl rfl⟩, _, rfl, ⟨rfl, nofun⟩, _, rfl, ⟨rfl, rfl, Or.inr rfl⟩,
      _, rfl, ⟨by decide, fun _ h => (Option.some.inj h).symm⟩, _, rfl, ⟨rfl, rfl⟩, rfl⟩
  obtain rfl := (hps _).mp hreads
  exact ⟨_, hreads, rfl, hmask rfl⟩

end Sharpen
