import Sharpen.Proofs.Code.Reading

/-!
# Pieces and Literals of a Text

A program text is read into pieces in one way. Here they are listed, each with the text that follows
it, and those that are literals closed on their line are picked out.

A piece is listed with the text behind it because that decides where the piece ends, and because
what is done to a text replaces pieces one at a time. That the list is the only one follows from the
uniqueness of readings.

## Main definitions

* `pieces` — the pieces of a text; `reads_pieces` says that the text is read into them.
* `literals` — the literals of a text; `pieces_literal` finds the one that a text starts with.
* `Piece.isLiteral` — a literal, closed or not.
* `Piece.isBlockComment` — a comment up to its closing mark.
* `Piece.literal?` — the literal that a piece is, with its quotes, if it is closed on its line.

## Main results

* `pieces_append_code` — code without quotes and slashes.
* `contentEnd?_append` — the content of a literal, part by part.
-/

namespace Sharpen

/-! ### Pieces -/

namespace Piece

/-- A character that is part of nothing longer. -/
def isCode : Piece → Bool
  | code _ => true
  | _ => false

/-- A literal, closed or not. -/
def isLiteral : Piece → Bool
  | literal _ _ _ => true
  | _ => false

/-- A comment up to its closing mark. -/
def isBlockComment : Piece → Bool
  | blockComment _ _ => true
  | _ => false

/-- The literal that a piece is, with its quotes, if it is closed on its line. -/
def literal? : Piece → Option Text
  | literal quote content (some c) =>
    if c == quote && !content.contains '\n' then some (quote :: (content ++ [c])) else none
  | _ => none

end Piece

/-- A piece of code is one character. -/
theorem exists_eq_code_of_isCode {p : Piece} (h : p.isCode = true) : ∃ c, p = .code c := by
  cases p with
  | code c => exact ⟨c, rfl⟩
  | lineComment => cases h
  | blockComment => cases h
  | literal => cases h

/-- A piece of code is no literal. -/
theorem isLiteral_of_isCode {p : Piece} (h : p.isCode = true) : p.isLiteral = false := by
  obtain ⟨c, rfl⟩ := exists_eq_code_of_isCode h
  rfl

/-- The first piece of a text stands before the rest, and both make up the text. -/
theorem firstPiece?_eq_some {t rest : Text} {p : Piece} (h : firstPiece? t = some (p, rest)) :
    t = p.text ++ rest ∧ p.StandsBefore rest := by
  have hne : t ≠ [] := by
    rintro rfl
    cases h
  obtain ⟨p', rest', rfl, hp'⟩ := exists_piece hne
  rw [firstPiece?_append hp'] at h
  obtain ⟨rfl, rfl⟩ := Prod.mk.inj (Option.some.inj h)
  exact ⟨rfl, hp'⟩

/-- Behind the first piece there is less of the text. -/
theorem length_lt_of_firstPiece? {t rest : Text} {p : Piece} (h : firstPiece? t = some (p, rest)) :
    rest.length < t.length := by
  obtain ⟨rfl, -⟩ := firstPiece?_eq_some h
  exact p.length_lt_append rest

/-- **The pieces of a text**, each with the text that follows it. -/
def pieces (t : Text) : List (Piece × Text) :=
  match h : firstPiece? t with
  | none => []
  | some (p, rest) =>
    have := length_lt_of_firstPiece? h
    (p, rest) :: pieces rest
termination_by t.length

/-- The literals among some pieces that are closed on their line. -/
def literalsAmong (ps : List (Piece × Text)) : List Text :=
  ps.filterMap fun x => x.1.literal?

/-- **The literals of a text**: what stands in quotes on one line, outside of comments. -/
def literals (t : Text) : List Text :=
  literalsAmong (pieces t)

/-- The literals among some pieces and others are those among both. -/
theorem literalsAmong_append (ps qs : List (Piece × Text)) :
    literalsAmong (ps ++ qs) = literalsAmong ps ++ literalsAmong qs :=
  List.filterMap_append

/-- A closed literal on one line is among them as it is written. -/
theorem literalsAmong_literal {q : Char} {content : Text} (hline : '\n' ∉ content) (rest : Text)
    (ps : List (Piece × Text)) : literalsAmong ((.literal q content (some q), rest) :: ps)
      = (q :: (content ++ [q])) :: literalsAmong ps := by
  have hself : (Piece.literal q content (some q)).literal? = some (q :: (content ++ [q])) := by
    simp [Piece.literal?, hline]
  rw [literalsAmong, List.filterMap_cons, hself]
  rfl

/-- A piece that stands before the rest is the first one, and the pieces of the rest follow. -/
theorem pieces_append {p : Piece} {rest : Text} (h : p.StandsBefore rest) :
    pieces (p.text ++ rest) = (p, rest) :: pieces rest := by
  rw [pieces]
  split
  · rename_i hnone
    rw [firstPiece?_append h] at hnone
    cases hnone
  · rename_i hsome
    rw [firstPiece?_append h] at hsome
    obtain ⟨rfl, rfl⟩ := Prod.mk.inj (Option.some.inj hsome)
    rfl

/-- So it is one of the pieces. -/
theorem mem_pieces_append {p : Piece} {rest : Text} (h : p.StandsBefore rest) :
    (p, rest) ∈ pieces (p.text ++ rest) := by
  rw [pieces_append h]
  exact List.mem_cons_self

@[simp]
theorem pieces_nil : pieces [] = [] := by
  rw [pieces]
  rfl

/-- A text is read into its pieces. -/
theorem reads_pieces (t : Text) : Reads t ((pieces t).map Prod.fst) := by
  obtain ⟨ps, hps⟩ := exists_reads t
  suffices h : (pieces t).map Prod.fst = ps from h ▸ hps
  induction ps generalizing t with
  | nil =>
      obtain rfl : t = [] := hps
      simp
  | cons p ps ih =>
      obtain ⟨rest, rfl, hp, hrest⟩ := hps
      rw [pieces_append hp, List.map_cons, ih rest hrest]

/-- The pieces of a text stand in it. -/
theorem mem_pieces {t : Text} {x : Piece × Text} (h : x ∈ pieces t) :
    x.1.text ++ x.2 <:+ t ∧ x.1.StandsBefore x.2 := by
  fun_induction pieces t with
  | case1 => cases h
  | case2 t p rest hfirst _ ih =>
      obtain ⟨rfl, hp⟩ := firstPiece?_eq_some hfirst
      rcases List.mem_cons.mp h with rfl | h
      · exact ⟨List.suffix_refl _, hp⟩
      · exact ⟨(ih h).1.trans (List.suffix_append _ _), (ih h).2⟩

/-- Code without quotes and slashes is read character by character. -/
theorem pieces_append_code {u : Text} (hu : ∀ c ∈ u, isQuote c = false ∧ c ≠ '/') (r : Text) :
    ∃ ps, pieces (u ++ r) = ps ++ pieces r ∧ literalsAmong ps = [] ∧
      ∀ x ∈ ps, r.length ≤ x.2.length ∧ x.1.isCode = true := by
  induction u with
  | nil => exact ⟨[], rfl, rfl, by simp⟩
  | cons c u ih =>
      obtain ⟨⟨hquote, hslash⟩, hu⟩ := List.forall_mem_cons.mp hu
      obtain ⟨ps, hps, hliterals, hcode⟩ := ih hu
      have hopens : opensComment c (u ++ r) = false := by simp [opensComment, hslash]
      have hstands : (Piece.code c).StandsBefore (u ++ r) := ⟨hquote, hopens⟩
      refine ⟨(.code c, u ++ r) :: ps, ?_, hliterals, ?_⟩
      · exact (pieces_append hstands).trans (congrArg ((.code c, u ++ r) :: ·) hps)
      · refine List.forall_mem_cons.mpr ⟨⟨?_, rfl⟩, hcode⟩
        rw [List.length_append]
        exact Nat.le_add_left _ _

/-- A piece that is a literal has a quote at both ends, and closes nowhere before. -/
theorem Piece.literal?_eq_some {p : Piece} {rest l : Text} (h : p.literal? = some l)
    (hp : p.StandsBefore rest) : ∃ q content, p = .literal q content (some q) ∧ isQuote q = true ∧
      contentEnd? q false content = some false ∧ '\n' ∉ content ∧ l = q :: (content ++ [q]) := by
  cases p with
  | code => cases h
  | lineComment => cases h
  | blockComment => cases h
  | literal q content stop =>
      cases stop with
      | none => cases h
      | some c =>
          rw [literal?] at h
          split at h
          · rename_i hclosed
            obtain ⟨hc, hline⟩ := Bool.and_eq_true_iff.mp hclosed
            obtain rfl := beq_iff_eq.mp hc
            exact ⟨c, content, rfl, hp.1, hp.2.1, by simpa using hline, (Option.some.inj h).symm⟩
          · cases h

/-- A literal on one line is the first piece, and it is one of the literals. -/
theorem pieces_literal {q : Char} {content : Text} (hq : isQuote q = true)
    (hend : contentEnd? q false content = some false) (hline : '\n' ∉ content) (rest : Text) :
    pieces (q :: (content ++ [q]) ++ rest)
        = (.literal q content (some q), rest) :: pieces rest ∧
      literals (q :: (content ++ [q]) ++ rest) = (q :: (content ++ [q])) :: literals rest := by
  have hstands : (Piece.literal q content (some q)).StandsBefore rest := ⟨hq, hend, Or.inl rfl⟩
  have hpieces : pieces (q :: (content ++ [q]) ++ rest)
      = (.literal q content (some q), rest) :: pieces rest := pieces_append hstands
  exact ⟨hpieces, by rw [literals, hpieces, literalsAmong_literal hline, literals]⟩

/-! ### The content of a literal -/

section

variable {q : Char} {escaped : Bool}

/-- Whether a literal goes on behind its content is told text by text. -/
theorem contentEnd?_append (u v : Text) :
    contentEnd? q escaped (u ++ v) = (contentEnd? q escaped u).bind (contentEnd? q · v) := by
  fun_induction contentEnd? q escaped u with
  | case1 => rfl
  | case2 c u ih => simpa [contentEnd?] using ih
  | case3 c u hstop => simp [contentEnd?, hstop]
  | case4 c u hstop ih => simpa [contentEnd?, hstop] using ih

/-- Behind a character that is no backslash nothing is escaped. -/
theorem contentEnd?_of_getLast? {u : Text} {c : Char} (hlast : u.getLast? = some c) (hc : c ≠ '\\')
    {e : Bool} (h : contentEnd? q escaped u = some e) : e = false := by
  obtain ⟨v, rfl⟩ := List.getLast?_eq_some_iff.mp hlast
  rw [contentEnd?_append] at h
  obtain ⟨e', -, hend⟩ := Option.bind_eq_some_iff.mp h
  cases e' with
  | true => exact (Option.some.inj hend).symm
  | false =>
      rw [contentEnd?] at hend
      split at hend
      · cases hend
      · rw [contentEnd?, beq_eq_false_iff_ne.mpr hc] at hend
        exact (Option.some.inj hend).symm

end

end Sharpen
