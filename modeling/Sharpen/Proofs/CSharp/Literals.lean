import Sharpen.Proofs.CSharp.ReplacedWords

/-!
# Literals of Converted Code

Conversion is to leave literals alone. It has two passes. The first takes off text macros, wherever
they stand, and the second replaces words outside of what it takes for literals, which are two
quotes on a line, also in comments. So a literal is changed if a text macro starts inside of it, or
if a word is replaced inside of it, and nothing else changes one in code that is orderly. That each
pass changes literals only there is shown by the steps of `Rewriting.Advances`; this module takes
those of the first pass.

The two passes cannot make up for each other. The first pass makes a literal shorter if it changes
it, and the second one makes none longer. So if the literals of the result are those of the text,
none was changed in between.

## Main definitions

* `Orderly` — literals are closed on their line, and text macros that start in a comment or literal
  end there.
* `takingOff` — the first pass over a text.

## Main results

* `TakesOff.literal` — a literal without the text macros inside of it is one.
* `Orderly.exists_advances` — the steps of the first pass.
* `literals_takeOff` — the first pass keeps the literals if, and only if, no text macro starts
  inside of one.
* `literals_convertBody_eq_iff` — both passes keep the literals if, and only if, no text macro
  starts and no word is replaced inside of one.
* `literals_convertBody_eq_iff_of_separate` — only text macros matter if block comments have no
  quotes or end their line.
-/

namespace Sharpen

/-! ### Text macros and literals -/

section

variable {q : Char} {escaped : Bool} {content : Text}

/-- A text macro inside of a literal is around a literal of the other kind. -/
theorem contentEnd?_textMacro {m literal : Text} (hm : IsTextMacro m literal) {e : Bool}
    (h : contentEnd? q escaped m = some e) :
    e = false ∧ contentEnd? q escaped literal = some false := by
  obtain ⟨v, hv⟩ := hm.exists_eq
  have hlast : m.getLast? = some ')' := by rw [hv, ← List.cons_append, List.getLast?_concat]
  refine ⟨contentEnd?_of_getLast? hlast (by decide) h, ?_⟩
  obtain ⟨before, behind, inside, q', rfl, rfl, hq', -, hne, hbefore, -⟩ := hm.exists_split
  rw [contentEnd?_append] at h
  obtain ⟨e₁, h₁, h⟩ := Option.bind_eq_some_iff.mp h
  rw [contentEnd?_append] at h
  obtain ⟨e₂, h₂, -⟩ := Option.bind_eq_some_iff.mp h
  obtain rfl : e₁ = false := by
    refine contentEnd?_of_getLast? (List.getLast?_eq_some_getLast hne) ?_ h₁
    intro hback
    exact absurd (hback ▸ hbefore _ (List.getLast_mem hne)) (by decide)
  have hquote : q' ≠ '\\' := by
    rintro rfl
    exact absurd hq' (by decide)
  obtain rfl := contentEnd?_of_getLast? (c := q')
    (by rw [← List.cons_append, List.getLast?_concat]) hquote h₂
  cases escaped with
  | false => exact h₂
  | true =>
      simp only [contentEnd?] at h₂ ⊢
      split at h₂
      · cases h₂
      · rwa [beq_eq_false_iff_ne.mpr hquote] at h₂

/-- **A literal without the text macros inside of it** is a literal. -/
theorem TakesOff.literal {before : Option Char} {t u : Text} {ms : List (Text × Text)}
    (h : TakesOff before t u ms) (hq : isQuote q = true) (ht : t = content ++ [q])
    (hend : contentEnd? q escaped content = some false) :
    ∃ v, u = v ++ [q] ∧ contentEnd? q escaped v = some false := by
  induction h generalizing escaped content with
  | nil => exact absurd ht (by simp)
  | @pass before x t u ms hnone hrest ih =>
      cases content with
      | nil =>
          obtain ⟨rfl, rfl⟩ := List.cons.inj ht
          obtain ⟨rfl, rfl⟩ := hrest.eq
          exact ⟨[], rfl, hend⟩
      | cons y content =>
          obtain ⟨rfl, rfl⟩ := List.cons.inj ht
          rw [← List.singleton_append, contentEnd?_append] at hend
          obtain ⟨e, hx, hcontent⟩ := Option.bind_eq_some_iff.mp hend
          obtain ⟨v, rfl, hv⟩ := ih rfl hcontent
          refine ⟨[x] ++ v, rfl, ?_⟩
          rw [contentEnd?_append, hx]
          exact hv
  | @take before m literal t u ms hm hbefore hrest ih =>
      have hne : t ≠ [] := by
        rintro rfl
        obtain ⟨v, rfl⟩ := hm.exists_eq
        rw [List.append_nil, ← List.cons_append] at ht
        obtain ⟨-, hlast⟩ := List.append_inj' ht rfl
        obtain rfl := (List.cons.inj hlast).1
        exact absurd hq (by decide)
      obtain ⟨content, rfl, rfl⟩ :=
        exists_append_of_length_le ht (List.length_pos_iff.mpr hne)
      rw [contentEnd?_append] at hend
      obtain ⟨e, he, hcontent⟩ := Option.bind_eq_some_iff.mp hend
      obtain ⟨rfl, hliteral⟩ := contentEnd?_textMacro hm he
      obtain ⟨v, rfl, hv⟩ := ih rfl hcontent
      refine ⟨literal ++ v, (List.append_assoc _ _ _).symm, ?_⟩
      rw [contentEnd?_append, hliteral]
      exact hv

end

/-- The literal of a text macro is part of it and has quotes at both ends. -/
theorem IsTextMacro.exists_quote {m literal : Text} (h : IsTextMacro m literal) :
    literal <:+: m ∧
      ∃ q, isQuote q = true ∧ literal.head? = some q ∧ literal.getLast? = some q := by
  obtain ⟨before, behind, inside, q, rfl, rfl, hq, -⟩ := h.exists_split
  refine ⟨⟨before, behind, List.append_assoc _ _ _⟩, q, hq, rfl, ?_⟩
  rw [← List.cons_append, List.getLast?_concat]

namespace TakesOff

variable {before : Option Char} {t u : Text} {ms : List (Text × Text)}

/-- What is left of a text stands in it in the same order. -/
theorem sublist (h : TakesOff before t u ms) : List.Sublist u t := by
  induction h with
  | nil => exact List.Sublist.refl _
  | pass hnone hrest ih => exact ih.cons_cons _
  | take hm hbefore hrest ih => exact hm.exists_quote.1.sublist.append ih

/-- Where the text that is left starts with no quote, the text starts alike. -/
theorem head? (h : TakesOff before t u ms) {d : Char} (hd : isQuote d = false)
    (hu : u.head? = some d) : t.head? = some d := by
  cases h with
  | nil => exact hu
  | pass hnone hrest => exact hu
  | take hm hbefore hrest =>
      obtain ⟨-, q, hq, hhead, -⟩ := hm.exists_quote
      rw [List.head?_append, hhead] at hu
      obtain rfl : q = d := Option.some.inj hu
      exact absurd (hd.symm.trans hq) nofun

/-- Taking off text macros makes no closing mark. -/
theorem unclosing (h : TakesOff before t u ms) (ht : Unclosing t) : Unclosing u := by
  induction h with
  | nil => exact ht
  | pass hnone hrest ih =>
      obtain ⟨hx, ht⟩ := List.isChain_cons.mp ht
      refine (ih ht).cons fun d hd hmark => hx d ?_ hmark
      exact hrest.head? (hmark.2 ▸ (by decide)) hd
  | take hm hbefore hrest ih =>
      obtain ⟨hpart, q, hq, -, hlast⟩ := hm.exists_quote
      have hliteral : Unclosing _ := List.IsChain.infix (List.IsChain.left_of_append ht) hpart
      refine hliteral.append (ih ht.right_of_append) ?_
      rw [hlast]
      intro heq
      obtain rfl := Option.some.inj heq
      exact absurd hq (by decide)

end TakesOff

section

variable {t r : Text}

/-- **A part in which text macros keep to themselves** is rid of them on its own, if it does not end
with a word, or no word follows. -/
theorem takeOff_append {v : Text}
    (hkeep : ∀ m ∈ textMacrosIn (v ++ r), r.length < m.1.length → r.length ≤ m.2.length)
    (hwords : v.getLast?.any isWord = true → r.head?.any isWord = false) :
    takeOff none (v ++ r) = takeOff none v ++ takeOff none r ∧
      textMacrosIn (v ++ r)
        = (textMacrosIn v).map (fun m => (m.1 ++ r, m.2 ++ r)) ++ textMacrosIn r := by
  obtain ⟨hoff, hmacros⟩ := (takesOff none (v ++ r)).append rfl hkeep
  have hafter : takeOff (v.getLast?.or none) r = takeOff none r ∧
      macrosFrom (v.getLast?.or none) r = macrosFrom none r := by
    rw [Option.or_none]
    cases hlast : v.getLast?.any isWord with
    | false => exact takeOff_congr hlast
    | true =>
        refine takeOff_of_head?_ne fun hhead => ?_
        have hword := hwords hlast
        rw [hhead] at hword
        exact absurd hword (by decide)
  rw [hafter.1] at hoff
  rw [hafter.2] at hmacros
  exact ⟨hoff, hmacros⟩

/-- Text macros of the first part start before the second one. -/
theorem length_of_mem_textMacrosIn_map {u r : Text} :
    ∀ m ∈ (textMacrosIn u).map (fun m => (m.1 ++ r, m.2 ++ r)), r.length < m.1.length ∧
      m.1.length ≤ (u ++ r).length := by
  intro m hm
  obtain ⟨k, hk, rfl⟩ := List.mem_map.mp hm
  obtain ⟨hsuffix, w, literal, hw, heq⟩ := (takesOff none u).mem k hk
  have hle := hsuffix.length_le
  have hlt := hw.length_lt
  rw [heq, List.length_append] at hle
  simp only [heq, List.length_append]
  omega

/-- What ends with neither character of the closing mark ends before it. -/
theorem two_le_length_of_mark {w s t : Text} {c : Char} (h : w ++ s <:+ t ++ ['*', '/'])
    (hlast : w.getLast? = some c) (hc : c ≠ '*' ∧ c ≠ '/') : 2 ≤ s.length := by
  obtain ⟨z, hz⟩ := h
  have hsplit : (z ++ w) ++ s = (t ++ ['*']) ++ ['/'] := by simpa using hz
  have hend : (z ++ w).getLast? = some c := by rw [List.getLast?_append, hlast, Option.some_or]
  match s, hsplit with
  | [], hsplit =>
      rw [List.append_nil] at hsplit
      rw [hsplit, List.getLast?_concat] at hend
      exact absurd (Option.some.inj hend).symm hc.2
  | [d], hsplit =>
      obtain ⟨hbefore, -⟩ := List.append_inj' hsplit rfl
      rw [hbefore, List.getLast?_concat] at hend
      exact absurd (Option.some.inj hend).symm hc.1
  | d :: e :: s, _ => simp

/-- The closing mark stays behind what stands before it. -/
theorem takeOff_append_mark (t : Text) :
    takeOff none (t ++ ['*', '/']) = takeOff none t ++ ['*', '/'] := by
  have hmark : takeOff none ['*', '/'] = ['*', '/'] := by
    rw [(takeOff_cons_of_not_isWord none (by decide)).1,
      (takeOff_cons_of_not_isWord none (by decide)).1]
    rfl
  have hkeep : ∀ m ∈ textMacrosIn (t ++ ['*', '/']), 2 < m.1.length → 2 ≤ m.2.length := by
    intro m hm _
    obtain ⟨hsuffix, w, literal, hw, heq⟩ := (takesOff none _).mem m hm
    obtain ⟨v, rfl⟩ := hw.exists_eq
    have hlast : ('_' :: (v ++ [')'])).getLast? = some ')' := by
      rw [← List.cons_append, List.getLast?_concat]
    exact two_le_length_of_mark (heq ▸ hsuffix) hlast (by decide)
  rw [(takeOff_append hkeep fun _ => by decide).1, hmark]

/-- A line ends alike without its text macros. -/
theorem newline_takeOff (hr : ∀ c ∈ r.head?, c = '\n') :
    ∀ c ∈ (takeOff none r).head?, c = '\n' := by
  cases r with
  | nil => exact nofun
  | cons d r =>
      obtain rfl := hr d rfl
      rw [(takeOff_cons_of_not_isWord none (by decide)).1]
      exact fun c hc => (Option.some.inj hc).symm

end

/-! ### Orderly code -/

/-- **Code in which what conversion looks for keeps to the pieces.** Literals are closed on their
line, and text macros that start in a comment or literal end there. -/
structure Orderly (t : Text) : Prop where
  closed : ClosesLiterals t
  textMacros : ∀ m ∈ textMacrosIn t, ∀ x ∈ pieces t, x.1.isCode = false → StartsIn m x → EndsIn m x

/-- **The first pass**: text macros are taken off. -/
def takingOff (t : Text) : Rewriting :=
  ⟨t, takeOff none t, textMacrosIn t⟩

/-- What a literal becomes in the first pass: it stays, or it becomes shorter. -/
def StaysOrShrinks (l k : Text) : Prop :=
  l = k ∨ l.length < k.length

/-- What the pieces of a text become is as fit for the second pass as they are: literals are closed
on their line, and block comments stay separate. -/
structure Prepares (ps qs : List (Piece × Text)) : Prop where
  closed : ∀ x ∈ qs, x.1.isLiteral = true → x.1.literal?.isSome = true
  separate : (∀ x ∈ ps, Separate x) → ∀ x ∈ qs, Separate x

/-- Code is fit for the second pass. -/
theorem prepares_of_isCode {ps qs : List (Piece × Text)} (h : ∀ x ∈ qs, x.1.isCode = true) :
    Prepares ps qs := by
  refine ⟨fun x hx hliteral => ?_, fun _ x hx hblock => ?_⟩
  · exact absurd ((isLiteral_of_isCode (h x hx)).symm.trans hliteral) nofun
  · have hcode := h x hx
    cases hpiece : x.1 with
    | blockComment =>
        rw [hpiece] at hcode
        cases hcode
    | _ =>
        rw [hpiece] at hblock
        cases hblock

/-- So is a literal on one line. -/
theorem prepares_literal {ps : List (Piece × Text)} {q : Char} {content : Text}
    (hline : '\n' ∉ content) (r : Text) :
    Prepares ps [(.literal q content (some q), r)] := by
  refine ⟨List.forall_mem_singleton.mpr fun _ => ?_, fun _ => List.forall_mem_singleton.mpr nofun⟩
  simp [Piece.literal?, hline]

section

variable {t : Text}

/-- Characters without a mark are code. -/
theorem code_of_isUnmarked {u : Text} (hu : ∀ c ∈ u, isUnmarked c = true) :
    ∀ c ∈ u, isQuote c = false ∧ c ≠ '/' := by
  intro c hc
  have hplain := hu c hc
  simp only [isUnmarked, Bool.and_eq_true, Bool.not_eq_true', bne_iff_ne] at hplain
  exact hplain.1

/-- Over a word that starts no text macro. -/
theorem advances_word {w : Text} (hne : w ≠ []) (hw : ∀ c ∈ w, isWord c = true)
    (ht : t.head?.any isWord = false) (hnone : ¬ StartsMacro none (w ++ t)) :
    ∃ ps qs, Rewriting.Advances StaysOrShrinks (takingOff (w ++ t)) (takingOff t) ps qs [] ∧
      Prepares ps qs := by
  have hhead : t.head? ≠ some '_' := by
    intro hhead
    rw [hhead] at ht
    exact absurd ht (by decide)
  obtain ⟨hoff, hmacros⟩ := takeOff_word hw hhead hnone
  have hfound : textMacrosIn (w ++ t) = textMacrosIn t := hmacros
  obtain ⟨ps, qs, hadvances, hcode⟩ := Rewriting.advances_code (R := StaysOrShrinks)
    (List.forall_mem_nil _) (fun m hm => ((takesOff none t).mem m hm).1.length_le)
    (s := takeOff none t) hne (code_of_isWord hw) (code_of_isWord hw)
  refine ⟨ps, qs, ?_, prepares_of_isCode hcode⟩
  rw [takingOff, hoff, hfound]
  exact hadvances

/-- Over a character of code that is in no word. -/
theorem advances_character {c : Char} (hword : isWord c = false)
    (hc : (Piece.code c).StandsBefore t) :
    ∃ ps qs, Rewriting.Advances StaysOrShrinks (takingOff (c :: t)) (takingOff t) ps qs [] ∧
      Prepares ps qs := by
  obtain ⟨hoff, hmacros⟩ := takeOff_cons_of_not_isWord (t := t) none hword
  have hfound : textMacrosIn (c :: t) = textMacrosIn t := hmacros
  have hafter : (Piece.code c).StandsBefore (takeOff none t) := by
    refine ⟨hc.1, ?_⟩
    rw [← Bool.not_eq_true]
    intro hopens
    refine Bool.eq_false_iff.mp hc.2 ?_
    simp only [opensComment, Bool.and_eq_true, Bool.or_eq_true, beq_iff_eq] at hopens ⊢
    exact hopens.imp_right fun hhead => hhead.imp ((takesOff none t).head? (by decide))
      ((takesOff none t).head? (by decide))
  have hprepares : Prepares [(.code c, t)] [(.code c, takeOff none t)] :=
    prepares_of_isCode (List.forall_mem_singleton.mpr rfl)
  refine ⟨_, _, ?_, hprepares⟩
  rw [takingOff, hoff, hfound]
  exact Rewriting.advances_other (List.forall_mem_nil _)
    (fun m hm => ((takesOff none t).mem m hm).1.length_le) hc hafter rfl rfl

/-- A text that starts with a quote starts with a literal. -/
theorem exists_literal {q : Char} {r : Text} (hq : isQuote q = true) :
    ∃ p rest, q :: r = Piece.text p ++ rest ∧ p.StandsBefore rest ∧ p.isLiteral = true := by
  obtain ⟨p, rest, heq, hp⟩ := exists_piece (List.cons_ne_nil q r)
  refine ⟨p, rest, heq, hp, ?_⟩
  cases p with
  | code c =>
      obtain ⟨rfl, -⟩ := List.cons.inj heq
      exact absurd (hq.symm.trans hp.1) (by decide)
  | lineComment content =>
      obtain ⟨rfl, -⟩ := List.cons.inj heq
      exact absurd hq (by decide)
  | blockComment content closed =>
      obtain ⟨rfl, -⟩ := List.cons.inj heq
      exact absurd hq (by decide)
  | literal => rfl

/-- A literal that a text starts with ends on its line if all literals of the text do. -/
theorem contentEnd?_of_literalRest? {q : Char} {inside : Text} (hq : isQuote q = true)
    (hinside : literalRest? false q (inside ++ [q]) = some [])
    (hclosed : ClosesLiterals (q :: (inside ++ [q]) ++ t)) :
    contentEnd? q false inside = some false ∧ '\n' ∉ inside := by
  obtain ⟨p, rest, hp, hstands, hliteral⟩ := exists_literal (r := inside ++ [q] ++ t) hq
  rw [List.cons_append, hp] at hclosed
  obtain ⟨q', content, rfl, hq', hend, hnewline⟩ := hclosed.exists_content hstands hliteral
  obtain ⟨rfl, hrest⟩ := List.cons.inj hp
  have hcut : literalRest? false q (content ++ q :: rest) = some rest :=
    literalRest?_of_contentEnd? hq' false hend hnewline rest
  have hwhole : inside ++ [q] ++ t = content ++ q :: rest := by simpa using hrest
  rw [← hwhole, literalRest?_append hinside, List.nil_append] at hcut
  obtain rfl := Option.some.inj hcut
  rw [List.append_assoc, List.singleton_append] at hwhole
  obtain rfl := List.append_cancel_right hwhole
  exact ⟨hend, hnewline⟩

/-- A text macro at the start of a text is found, and only its literal is left of it. -/
theorem takeOff_none_textMacro {m literal : Text} (hm : IsTextMacro m literal) :
    takeOff none (m ++ t) = literal ++ takeOff none t ∧
      textMacrosIn (m ++ t) = (m ++ t, t) :: textMacrosIn t := by
  have hbefore : Option.any isWord none = false := rfl
  have hbracket : (some ')').any isWord = Option.any isWord none := by decide
  obtain ⟨hoff, hmacros⟩ := (TakesOff.take hm hbefore (takesOff (some ')') t)).eq
  rw [(takeOff_congr hbracket).1] at hoff
  rw [(takeOff_congr hbracket).2] at hmacros
  exact ⟨hoff, hmacros⟩

/-- **The pieces of a text macro in orderly code** are characters of code and its literal, and it
starts outside of the literal. -/
theorem Orderly.exists_pieces_textMacro {m literal : Text} (h : Orderly (m ++ t))
    (hm : IsTextMacro m literal) :
    ∃ q inside ps, literal = q :: (inside ++ [q]) ∧ isQuote q = true ∧
      contentEnd? q false inside = some false ∧ '\n' ∉ inside ∧ pieces (m ++ t) = ps ++ pieces t ∧
      literalsAmong ps = [literal] ∧ (∀ x ∈ ps, t.length ≤ x.2.length) ∧
      Untouched [(m ++ t, t)] ps := by
  obtain ⟨before, behind, inside, q, rfl, rfl, hq, hinside, hne, hbefore, hbehind⟩ :=
    hm.exists_split
  have hassoc : before ++ (q :: (inside ++ [q]) ++ behind) ++ t
      = before ++ (q :: (inside ++ [q]) ++ (behind ++ t)) := by simp
  obtain ⟨psBefore, hpsBefore, hnoneBefore, hcodeBefore⟩ :=
    pieces_append_code (code_of_isUnmarked hbefore) (q :: (inside ++ [q]) ++ (behind ++ t))
  obtain ⟨psBehind, hpsBehind, hnoneBehind, hcodeBehind⟩ :=
    pieces_append_code (code_of_isUnmarked hbehind) t
  obtain ⟨hend, hnewline⟩ := contentEnd?_of_literalRest? (t := behind ++ t) hq hinside
    fun x hx => h.closed x (hassoc ▸ hpsBefore ▸ List.mem_append_right psBefore hx)
  obtain ⟨hliteral, -⟩ := pieces_literal hq hend hnewline (behind ++ t)
  refine ⟨q, inside, psBefore ++ (.literal q inside (some q), behind ++ t) :: psBehind, rfl, hq,
    hend, hnewline, ?_, ?_, ?_, ?_⟩
  · rw [hassoc, hpsBefore, hliteral, hpsBehind, List.append_assoc, List.cons_append]
  · rw [literalsAmong_append, hnoneBefore, literalsAmong_literal hnewline, hnoneBehind]
    rfl
  · simp only [List.forall_mem_append, List.forall_mem_cons]
    refine ⟨fun x hx => ?_, ?_, fun x hx => (hcodeBehind x hx).1⟩
    · have hle := (hcodeBefore x hx).1
      simp only [List.length_append] at hle
      omega
    · rw [List.length_append]
      exact Nat.le_add_left _ _
  · simp only [Untouched, List.forall_mem_singleton, List.forall_mem_append, List.forall_mem_cons]
    refine ⟨fun x hx hliteral => ?_, fun _ hstarts => ?_, fun x hx hliteral => ?_⟩
    · exact absurd (isLiteral_of_isCode (hcodeBefore x hx).2) (by simp [hliteral])
    · have hle := hstarts.2
      have hpos := List.length_pos_iff.mpr hne
      simp only [Piece.text, Option.toList_some, List.length_append, List.length_cons] at hle
      omega
    · exact absurd (isLiteral_of_isCode (hcodeBehind x hx).2) (by simp [hliteral])

/-- Over a text macro: only its literal is left. -/
theorem advances_textMacro {m literal : Text} (h : Orderly (m ++ t)) (hm : IsTextMacro m literal) :
    ∃ ps qs, Rewriting.Advances StaysOrShrinks (takingOff (m ++ t)) (takingOff t) ps qs
      [(m ++ t, t)] ∧ Prepares ps qs := by
  obtain ⟨q, inside, ps, rfl, hq, hend, hnewline, hpieces, hamong, hlength, huntouched⟩ :=
    h.exists_pieces_textMacro hm
  obtain ⟨hoff, hmacros⟩ := takeOff_none_textMacro (t := t) hm
  have hleft : literalsAmong [(Piece.literal q inside (some q), takeOff none t)]
      = [q :: (inside ++ [q])] := literalsAmong_literal hnewline _ []
  have hlt : t.length < (m ++ t).length := by
    have hshorter := hm.length_lt
    rw [List.length_append]
    omega
  refine ⟨ps, [(.literal q inside (some q), takeOff none t)], ⟨hlt, hpieces, ?_, hmacros, hlength,
    List.forall_mem_singleton.mpr hlt, fun m hm => ((takesOff none t).mem m hm).1.length_le, ?_,
    ?_⟩, prepares_literal hnewline _⟩
  · rw [takingOff, hoff]
    exact (pieces_literal hq hend hnewline _).1
  · rw [hamong, hleft]
    exact .cons (Or.inl rfl) .nil
  · rw [hamong, hleft]
    exact iff_of_true rfl huntouched

section

variable {p : Piece} {rest : Text} (h : Orderly (p.text ++ rest)) (hp : p.StandsBefore rest)
  (hcode : p.isCode = false)

include h hp hcode

/-- Comments and literals are rid of their text macros on their own. -/
theorem Orderly.takeOff_append :
    takeOff none (p.text ++ rest) = takeOff none p.text ++ takeOff none rest ∧
      textMacrosIn (p.text ++ rest)
        = (textMacrosIn p.text).map (fun m => (m.1 ++ rest, m.2 ++ rest)) ++ textMacrosIn rest := by
  refine Sharpen.takeOff_append (fun m hm hlt => ?_) (hp.not_isWord hcode)
  exact h.textMacros m hm (p, rest) (mem_pieces_append hp) hcode
    ⟨hlt, ((takesOff none _).mem m hm).1.length_le⟩

end

/-- A literal on one line is still one without the text macros inside of it. -/
theorem takeOff_literal {q : Char} {content : Text} (hq : isQuote q = true)
    (hend : contentEnd? q false content = some false) (hline : '\n' ∉ content) :
    ∃ v, takeOff none (q :: (content ++ [q])) = q :: (v ++ [q]) ∧
      contentEnd? q false v = some false ∧ '\n' ∉ v := by
  have hword : isWord q = false := by
    rw [← Bool.not_eq_true]
    exact fun hword => absurd (hq.symm.trans (isQuote_eq_false_of_isWord hword)) (by decide)
  have htakes := takesOff none (content ++ [q])
  obtain ⟨v, hv, hend'⟩ := htakes.literal hq rfl hend
  refine ⟨v, by rw [(takeOff_cons_of_not_isWord none hword).1, hv], hend', fun hmem => ?_⟩
  have hnewline := htakes.sublist.subset (hv ▸ List.mem_append_left [q] hmem)
  rcases List.mem_append.mp hnewline with hcontent | hquote
  · exact hline hcontent
  · obtain rfl := List.mem_singleton.mp hquote
    exact absurd hq (by decide)

/-- Over a literal. -/
theorem advances_lineLiteral {q : Char} {content : Text}
    (h : Orderly (q :: (content ++ [q]) ++ t)) (hq : isQuote q = true)
    (hend : contentEnd? q false content = some false) (hline : '\n' ∉ content) :
    ∃ ps qs ms, Rewriting.Advances StaysOrShrinks (takingOff (q :: (content ++ [q]) ++ t))
      (takingOff t) ps qs ms ∧ Prepares ps qs := by
  have hstands : (Piece.literal q content (some q)).StandsBefore t := ⟨hq, hend, Or.inl rfl⟩
  obtain ⟨v, hoff, hend', hline'⟩ := takeOff_literal hq hend hline
  obtain ⟨hbody, hmacros⟩ :=
    Orderly.takeOff_append (p := .literal q content (some q)) h hstands rfl
  have hrelated : StaysOrShrinks (q :: (v ++ [q])) (q :: (content ++ [q])) := by
    have hsublist := (takesOff none (q :: (content ++ [q]))).sublist
    rw [hoff] at hsublist
    rcases Nat.eq_or_lt_of_le hsublist.length_le with heq | hlt
    · exact Or.inl (hsublist.eq_of_length heq)
    · exact Or.inr hlt
  have hsame : v = content ↔
      (textMacrosIn (q :: (content ++ [q]))).map (fun m => (m.1 ++ t, m.2 ++ t)) = [] := by
    have hself : takeOff none (q :: (content ++ [q])) = q :: (content ++ [q]) ↔
        textMacrosIn (q :: (content ++ [q])) = [] := takeOff_eq_self_iff
    rw [List.map_eq_nil_iff, ← hself, hoff]
    simp
  have hprepares : Prepares [(.literal q content (some q), t)]
      [(.literal q v (some q), takeOff none t)] := prepares_literal hline' _
  have hbody' : takeOff none (q :: (content ++ [q]) ++ t) = q :: (v ++ [q]) ++ takeOff none t :=
    hbody.trans (congrArg (· ++ takeOff none t) hoff)
  refine ⟨_, _, (textMacrosIn (q :: (content ++ [q]))).map fun m => (m.1 ++ t, m.2 ++ t), ?_,
    hprepares⟩
  rw [takingOff, hbody', show textMacrosIn (q :: (content ++ [q]) ++ t) = _ from hmacros]
  exact Rewriting.advances_literal (fun m hm => (length_of_mem_textMacrosIn_map m hm).1)
    (fun m hm => ((takesOff none t).mem m hm).1.length_le) hq hend hline hend' hline' hrelated hsame
    fun m hm => (length_of_mem_textMacrosIn_map m hm).2

/-- A comment without its text macros is a comment, and it is separate if it was. -/
theorem exists_comment {p : Piece} {rest : Text} (hp : p.StandsBefore rest)
    (hcode : p.isCode = false) (hliteral : p.isLiteral = false) :
    ∃ q : Piece, takeOff none p.text = q.text ∧ q.StandsBefore (takeOff none rest) ∧
      q.isLiteral = false ∧ (Separate (p, rest) → Separate (q, takeOff none rest)) := by
  have hcons : ∀ c ∈ ['/', '*'], ∀ u, takeOff none (c :: u) = c :: takeOff none u := by
    intro c hc u
    have hword : isWord c = false := by
      rcases List.mem_pair.mp hc with rfl | rfl <;> decide
    exact (takeOff_cons_of_not_isWord none hword).1
  cases p with
  | code => cases hcode
  | literal => cases hliteral
  | lineComment content =>
      refine ⟨.lineComment (takeOff none content), ?_, ⟨?_, newline_takeOff hp.2⟩, rfl, nofun⟩
      · rw [Piece.text, hcons '/' (by simp), hcons '/' (by simp)]
        rfl
      · exact fun hnewline => hp.1 ((takesOff none content).sublist.subset hnewline)
  | blockComment content closed =>
      have htext : takeOff none (Piece.blockComment content closed).text
          = (Piece.blockComment (takeOff none content) closed).text := by
        rw [Piece.text, hcons '/' (by simp), hcons '*' (by simp)]
        cases closed with
        | true => rw [if_pos rfl, takeOff_append_mark]; rfl
        | false => simp [Piece.text]
      have hunclosing := (takesOff none content).unclosing (unclosing_iff.mpr hp.1)
      refine ⟨.blockComment (takeOff none content) closed, htext,
        ⟨unclosing_iff.mp hunclosing, fun hopen => ?_⟩, rfl, fun hseparate _ => ?_⟩
      · obtain rfl := hp.2 hopen
        rfl
      · refine (hseparate rfl).imp (fun hquoteless c hc => ?_) newline_takeOff
        rw [← htext] at hc
        exact hquoteless c ((takesOff none _).sublist.subset hc)

/-- Over a comment. -/
theorem advances_comment {p : Piece} {rest : Text} (h : Orderly (p.text ++ rest))
    (hp : p.StandsBefore rest) (hcode : p.isCode = false) (hliteral : p.isLiteral = false) :
    ∃ ps qs ms, Rewriting.Advances StaysOrShrinks (takingOff (p.text ++ rest)) (takingOff rest)
      ps qs ms ∧ Prepares ps qs := by
  obtain ⟨hoff, hmacros⟩ := h.takeOff_append hp hcode
  obtain ⟨q, htext, hq, hnone, hseparate⟩ := exists_comment hp hcode hliteral
  have hprepares : Prepares [(p, rest)] [(q, takeOff none rest)] := by
    refine ⟨List.forall_mem_singleton.mpr fun hq' => absurd (hnone.symm.trans hq') nofun, ?_⟩
    intro hps
    exact List.forall_mem_singleton.mpr (hseparate (hps _ (List.mem_singleton_self _)))
  refine ⟨_, _, (textMacrosIn p.text).map fun m => (m.1 ++ rest, m.2 ++ rest), ?_, hprepares⟩
  rw [takingOff, hoff, hmacros, htext]
  exact Rewriting.advances_other (fun m hm => (length_of_mem_textMacrosIn_map m hm).1)
    (fun m hm => ((takesOff none rest).mem m hm).1.length_le) hp hq hliteral hnone

/-- **The first pass goes over orderly code step by step.** -/
theorem Orderly.exists_advances (h : Orderly t) (hne : t ≠ []) :
    ∃ r ps qs ms, Rewriting.Advances StaysOrShrinks (takingOff t) (takingOff r) ps qs ms ∧
      Prepares ps qs := by
  obtain ⟨p, rest, rfl, hp⟩ := exists_piece hne
  cases hliteral : p.isLiteral with
  | true =>
      obtain ⟨q, content, rfl, hq, hend, hline⟩ := h.closed.exists_content hp hliteral
      exact ⟨rest, advances_lineLiteral h hq hend hline⟩
  | false =>
      cases p with
      | literal => cases hliteral
      | lineComment => exact ⟨rest, advances_comment h hp rfl rfl⟩
      | blockComment => exact ⟨rest, advances_comment h hp rfl rfl⟩
      | code c =>
          cases hc : isWord c with
          | false =>
              obtain ⟨ps, qs, hadvances⟩ := advances_character hc hp
              exact ⟨rest, ps, qs, [], hadvances⟩
          | true =>
              by_cases hstarts : StartsMacro none (c :: rest)
              · obtain ⟨-, m, literal, hm, r, hr⟩ := hstarts
                obtain ⟨ps, qs, hadvances⟩ := advances_textMacro (t := r) (hr ▸ h) hm
                exact ⟨r, ps, qs, _, hr ▸ hadvances⟩
              · obtain ⟨w, r, hsplit, hne, hw, hr⟩ := exists_word (t := rest) hc
                obtain ⟨ps, qs, hadvances⟩ := advances_word hne hw hr (hsplit ▸ hstarts)
                refine ⟨r, ps, qs, [], ?_⟩
                rw [show (Piece.code c).text ++ rest = w ++ r from hsplit]
                exact hadvances

/-! ### Both passes -/

/-- What is left after a step is orderly. -/
theorem Orderly.of_advances {R : Text → Text → Prop} {r : Text} {ps qs : List (Piece × Text)}
    {ms : List (Text × Text)} (h : Orderly t)
    (ha : Rewriting.Advances R (takingOff t) (takingOff r) ps qs ms) : Orderly r := by
  have hpieces : pieces t = ps ++ pieces r := ha.reads
  have hmacros : textMacrosIn t = ms ++ textMacrosIn r := ha.finds
  refine ⟨h.closed.of_pieces hpieces, fun m hm x hx => h.textMacros m ?_ x ?_⟩
  · exact hmacros ▸ List.mem_append_right ms hm
  · exact hpieces ▸ List.mem_append_right ps hx

/-- **The first pass keeps the literals of orderly code if, and only if, no text macro starts inside
of one.** It changes them only by making them shorter. -/
theorem literals_takeOff (h : Orderly t) :
    List.Forall₂ StaysOrShrinks (literals (takeOff none t)) (literals t) ∧
      (literals (takeOff none t) = literals t ↔ Untouched (textMacrosIn t) (pieces t)) := by
  refine Rewriting.literals_of_advances (a := takingOff t)
    (P := fun a => ∃ t, a = takingOff t ∧ Orderly t) ?_ ?_ ⟨t, rfl, h⟩
  · rintro _ ⟨t, rfl, -⟩ ht
    obtain rfl : t = [] := ht
    exact ⟨rfl, rfl⟩
  · rintro _ ⟨t, rfl, h⟩ hne
    obtain ⟨r, ps, qs, ms, hadvances, -⟩ := h.exists_advances hne
    exact ⟨_, ps, qs, ms, hadvances, r, rfl, h.of_advances hadvances⟩

/-- The first pass prepares orderly code for the second one. -/
theorem Orderly.prepares (h : Orderly t) : Prepares (pieces t) (pieces (takeOff none t)) := by
  induction hlength : t.length using Nat.strongRecOn generalizing t with
  | ind n ih =>
      by_cases hne : t = []
      · obtain rfl := hne
        have hnil : pieces (takeOff none []) = [] := pieces_nil
        rw [hnil]
        exact ⟨List.forall_mem_nil _, fun _ => List.forall_mem_nil _⟩
      · obtain ⟨r, ps, qs, ms, hadvances, hhere⟩ := h.exists_advances hne
        have hrest := ih r.length (hlength ▸ hadvances.shorter) (h.of_advances hadvances) rfl
        rw [show pieces t = ps ++ pieces r from hadvances.reads,
          show pieces (takeOff none t) = qs ++ pieces (takeOff none r) from hadvances.leaves]
        refine ⟨List.forall_mem_append.mpr ⟨hhere.closed, hrest.closed⟩, fun hseparate => ?_⟩
        obtain ⟨hps, hpieces⟩ := List.forall_mem_append.mp hseparate
        exact List.forall_mem_append.mpr ⟨hhere.separate hps, hrest.separate hpieces⟩

/-- Literals that become no longer in the second pass and are at last what they were have stayed in
the first pass. -/
theorem eq_of_staysOrShrinks {ls ks ms : List Text}
    (h : List.Forall₂ (fun l k : Text => l.length ≤ k.length) ls ks)
    (h' : List.Forall₂ StaysOrShrinks ks ms) (heq : ls = ms) : ks = ms := by
  subst heq
  induction h with
  | nil => rfl
  | cons hle hrest ih =>
      cases h' with
      | cons hfirst hothers =>
          rw [ih hothers]
          rcases hfirst with rfl | hlt
          · rfl
          · exact absurd hlt (Nat.not_lt.mpr hle)

/-- Both passes keep the literals if, and only if, each of them does. -/
theorem Orderly.literals_convertBody_iff (h : Orderly t) :
    literals (convertBody t) = literals t ↔
      literals (takeOff none t) = literals t ∧
        literals (convertCode (takeOff none t)) = literals (takeOff none t) := by
  rw [convertBody_eq]
  constructor
  · intro heq
    have hfirst := eq_of_staysOrShrinks (literals_convertCode h.prepares.closed).1
      (literals_takeOff h).1 heq
    exact ⟨hfirst, heq.trans hfirst.symm⟩
  · rintro ⟨hfirst, hsecond⟩
    exact hsecond.trans hfirst

/-- **The literals of orderly code stay if, and only if, no text macro starts inside of one**, and
no word is replaced inside of one when the text macros are taken off. -/
theorem literals_convertBody_eq_iff (h : Orderly t) :
    literals (convertBody t) = literals t ↔
      Untouched (textMacrosIn t) (pieces t) ∧
        Untouched (replacedIn (takeOff none t)) (pieces (takeOff none t)) := by
  rw [h.literals_convertBody_iff, (literals_takeOff h).2,
    (literals_convertCode h.prepares.closed).2]

/-- **Only text macros change literals** if block comments have no quotes or end their line. -/
theorem literals_convertBody_eq_iff_of_separate (h : Orderly t)
    (hseparate : ∀ x ∈ pieces t, Separate x) :
    literals (convertBody t) = literals t ↔ Untouched (textMacrosIn t) (pieces t) := by
  have hreplaced := untouched_replacedIn h.prepares.closed (h.prepares.separate hseparate)
  rw [h.literals_convertBody_iff, (literals_takeOff h).2,
    (literals_convertCode h.prepares.closed).2, and_iff_left hreplaced]

end

/-- A literal in a text macro, one without, and a quote in a comment. -/
theorem literals_convertBody_return :
    literals (convertBody "if (p == NULL) return _T(\"NULL\") + \"TRUE\"; // don't\n")
      = ["\"NULL\"", "\"TRUE\""] := by
  have horderly : Orderly "if (p == NULL) return _T(\"NULL\") + \"TRUE\"; // don't\n" :=
    ⟨by decide +kernel, by decide +kernel⟩
  rw [(literals_convertBody_eq_iff horderly).mpr (by decide +kernel)]
  decide +kernel

/-- **Conversion does not leave all literals alone**: a text macro is taken off inside of one. -/
theorem not_forall_literals_convertBody : ¬ ∀ t, literals (convertBody t) = literals t :=
  fun h => absurd (h "\"_T('x')\"") (by decide +kernel)

/-- A quote in a block comment makes a literal with the next one on the line. -/
example : literals (convertBody "/* ' */ \"a' NULL\"") = ["\"a' null\""] := by
  decide +kernel

end Sharpen
