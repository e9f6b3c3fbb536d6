import Sharpen.Proofs.Code.Pieces

/-!
# Rewriting a Text Piece by Piece

Conversion rewrites a text in two passes: text macros are taken off, and then words are replaced.
Neither pass knows of comments and literals as they are read, so a change may start in a literal,
and then the program that is written prints another text. This module is about any such pass: it
relates the literals of what is rewritten to the literals of what it is rewritten to.

A `Rewriting` is a text with what it becomes and with the changes that are made, each as the text
from its start and the text behind it. That is the form in which `pieces` gives the pieces, so
whether a change starts in a piece is a matter of lengths. A pass goes over a text in steps: over a
character or some code, over a comment, or over a literal. `Rewriting.Advances` says what all steps
have in common, and the induction over the steps is made once for both passes.

## Main definitions

* `StartsIn`, `EndsIn` — a change starts in a piece, and does not go over its end.
* `Untouched` — no change starts inside of a literal.
* `Rewriting.Advances` — one step of a pass.

## Main results

* `Rewriting.advances_code`, `Rewriting.advances_piece`, `Rewriting.advances_literal` — the steps
  there are.
* `Rewriting.literals_of_advances` — a pass keeps all literals if, and only if, no change starts
  inside of one.
-/

namespace Sharpen

/-- A change starts in a piece. -/
def StartsIn (m : Text × Text) (x : Piece × Text) : Prop :=
  x.2.length < m.1.length ∧ m.1.length ≤ (x.1.text ++ x.2).length

/-- A change does not go over the end of a piece. -/
def EndsIn (m : Text × Text) (x : Piece × Text) : Prop :=
  x.2.length ≤ m.2.length

instance (m : Text × Text) (x : Piece × Text) : Decidable (StartsIn m x) :=
  inferInstanceAs (Decidable (_ ∧ _))

instance (m : Text × Text) (x : Piece × Text) : Decidable (EndsIn m x) :=
  inferInstanceAs (Decidable (_ ≤ _))

/-- No change starts inside of a literal. -/
def Untouched (ms : List (Text × Text)) (ps : List (Piece × Text)) : Prop :=
  ∀ m ∈ ms, ∀ x ∈ ps, x.1.isLiteral = true → ¬ StartsIn m x

instance (ms : List (Text × Text)) (ps : List (Piece × Text)) : Decidable (Untouched ms ps) :=
  inferInstanceAs (Decidable (∀ m ∈ ms, ∀ x ∈ ps, x.1.isLiteral = true → ¬ StartsIn m x))

/-- Pieces that are no literals are not touched. -/
theorem untouched_of_isLiteral {ms : List (Text × Text)} {ps : List (Piece × Text)}
    (h : ∀ x ∈ ps, x.1.isLiteral = false) : Untouched ms ps :=
  fun _ _ x hx hliteral => absurd ((h x hx).symm.trans hliteral) nofun

/-- Changes before a place in a text have nothing to do with the pieces behind it, and the other way
round. -/
theorem untouched_append {cs ks : List (Text × Text)} {ps qs : List (Piece × Text)} {n : Nat}
    (hps : ∀ x ∈ ps, n ≤ x.2.length) (hqs : ∀ x ∈ qs, (x.1.text ++ x.2).length ≤ n)
    (hcs : ∀ c ∈ cs, n < c.1.length) (hks : ∀ c ∈ ks, c.1.length ≤ n) :
    Untouched (cs ++ ks) (ps ++ qs) ↔ Untouched cs ps ∧ Untouched ks qs := by
  have hlater : ∀ c ∈ cs, ∀ x ∈ qs, ¬ StartsIn c x := fun c hc x hx hstarts => by
    have hlt := hcs c hc
    have hle := hqs x hx
    have hstart := hstarts.2
    omega
  have hearlier : ∀ c ∈ ks, ∀ x ∈ ps, ¬ StartsIn c x := fun c hc x hx hstarts => by
    have hle := hps x hx
    have hle' := hks c hc
    have hstart := hstarts.1
    omega
  simp only [Untouched, List.forall_mem_append]
  constructor
  · exact fun ⟨h, h'⟩ => ⟨fun c hc => (h c hc).1, fun c hc => (h' c hc).2⟩
  · exact fun ⟨h, h'⟩ => ⟨fun c hc => ⟨h c hc, fun x hx _ => hlater c hc x hx⟩,
      fun c hc => ⟨fun x hx _ => hearlier c hc x hx, h' c hc⟩⟩

/-- **A text that is rewritten**, what it becomes, and the changes that are made. -/
structure Rewriting where
  /-- The text that is rewritten. -/
  source : Text
  /-- What it becomes. -/
  target : Text
  /-- What is changed, each as the text from its start and the text behind it. -/
  changes : List (Text × Text)

namespace Rewriting

/-- **A step of a pass over a text**: it goes over some pieces and makes other ones of them. The
literals of the pieces become literals that are related to them by `R`, and they stay if, and only
if, none of the changes starts in one. -/
structure Advances (R : Text → Text → Prop) (a b : Rewriting) (ps qs : List (Piece × Text))
    (cs : List (Text × Text)) : Prop where
  shorter : b.source.length < a.source.length
  reads : pieces a.source = ps ++ pieces b.source
  leaves : pieces a.target = qs ++ pieces b.target
  finds : a.changes = cs ++ b.changes
  endsBefore : ∀ x ∈ ps, b.source.length ≤ x.2.length
  startsBefore : ∀ c ∈ cs, b.source.length < c.1.length
  startsBehind : ∀ c ∈ b.changes, c.1.length ≤ b.source.length
  related : List.Forall₂ R (literalsAmong qs) (literalsAmong ps)
  kept : literalsAmong qs = literalsAmong ps ↔ Untouched cs ps

/-! ### The steps there are -/

section

variable {R : Text → Text → Prop} {r s : Text} {cs ks : List (Text × Text)}
  (hcs : ∀ c ∈ cs, r.length < c.1.length) (hks : ∀ c ∈ ks, c.1.length ≤ r.length)

include hcs hks

/-- Over code without quotes and slashes, of which some may be changed. -/
theorem advances_code {v w : Text} (hne : v ≠ []) (hv : ∀ c ∈ v, isQuote c = false ∧ c ≠ '/')
    (hw : ∀ c ∈ w, isQuote c = false ∧ c ≠ '/') :
    ∃ ps qs, Advances R ⟨v ++ r, w ++ s, cs ++ ks⟩ ⟨r, s, ks⟩ ps qs cs ∧
      ∀ x ∈ qs, x.1.isCode = true := by
  obtain ⟨ps, hps, hnone, hcode⟩ := pieces_append_code hv r
  obtain ⟨qs, hqs, hnone', hcode'⟩ := pieces_append_code hw s
  refine ⟨ps, qs, ⟨?_, hps, hqs, rfl, fun x hx => (hcode x hx).1, hcs, hks, ?_, ?_⟩,
    fun x hx => (hcode' x hx).2⟩
  · have hpos := List.length_pos_iff.mpr hne
    simp only [List.length_append]
    omega
  · rw [hnone, hnone']
    exact .nil
  · rw [hnone, hnone']
    exact iff_of_true rfl (untouched_of_isLiteral fun x hx => isLiteral_of_isCode (hcode x hx).2)

/-- Over a piece that becomes a piece. -/
theorem advances_piece {p q : Piece} (hp : p.StandsBefore r) (hq : q.StandsBefore s)
    (hrelated : List.Forall₂ R (literalsAmong [(q, s)]) (literalsAmong [(p, r)]))
    (hkept : literalsAmong [(q, s)] = literalsAmong [(p, r)] ↔ Untouched cs [(p, r)]) :
    Advances R ⟨p.text ++ r, q.text ++ s, cs ++ ks⟩ ⟨r, s, ks⟩ [(p, r)] [(q, s)] cs := by
  exact ⟨p.length_lt_append r, pieces_append hp, pieces_append hq, rfl, by simp, hcs, hks, hrelated,
    hkept⟩

/-- Over a piece that is no literal and does not become one. -/
theorem advances_other {p q : Piece} (hp : p.StandsBefore r) (hq : q.StandsBefore s)
    (hnone : p.isLiteral = false) (hnone' : q.isLiteral = false) :
    Advances R ⟨p.text ++ r, q.text ++ s, cs ++ ks⟩ ⟨r, s, ks⟩ [(p, r)] [(q, s)] cs := by
  have hamong : ∀ (p : Piece) (rest : Text), p.isLiteral = false →
      literalsAmong [(p, rest)] = [] := by
    intro p rest hp
    cases p with
    | literal => cases hp
    | _ => rfl
  refine advances_piece hcs hks hp hq ?_ ?_
  · rw [hamong p r hnone, hamong q s hnone']
    exact .nil
  · rw [hamong p r hnone, hamong q s hnone']
    exact iff_of_true rfl (untouched_of_isLiteral (List.forall_mem_singleton.mpr hnone))

/-- Over a literal on one line that becomes one. -/
theorem advances_literal {q : Char} {content v : Text} (hq : isQuote q = true)
    (hend : contentEnd? q false content = some false) (hline : '\n' ∉ content)
    (hend' : contentEnd? q false v = some false) (hline' : '\n' ∉ v)
    (hrelated : R (q :: (v ++ [q])) (q :: (content ++ [q]))) (hsame : v = content ↔ cs = [])
    (hinside : ∀ c ∈ cs, c.1.length ≤ (q :: (content ++ [q]) ++ r).length) :
    Advances R ⟨q :: (content ++ [q]) ++ r, q :: (v ++ [q]) ++ s, cs ++ ks⟩ ⟨r, s, ks⟩
      [(.literal q content (some q), r)] [(.literal q v (some q), s)] cs := by
  have hstands : (Piece.literal q content (some q)).StandsBefore r := ⟨hq, hend, Or.inl rfl⟩
  have hstands' : (Piece.literal q v (some q)).StandsBefore s := ⟨hq, hend', Or.inl rfl⟩
  have hamong := literalsAmong_literal hline r (q := q) []
  have hamong' := literalsAmong_literal hline' s (q := q) []
  refine advances_piece hcs hks hstands hstands' ?_ ?_
  · rw [hamong, hamong']
    exact .cons hrelated .nil
  · rw [hamong, hamong', List.cons_eq_cons, and_iff_left rfl, List.cons_eq_cons,
      and_iff_right rfl, List.append_left_inj, hsame]
    constructor
    · rintro rfl
      exact List.forall_mem_nil _
    · refine fun huntouched => List.eq_nil_iff_forall_not_mem.mpr fun c hc => ?_
      exact huntouched c hc _ (List.mem_singleton_self _) rfl ⟨hcs c hc, hinside c hc⟩

end

/-! ### All steps of a pass -/

variable {R : Text → Text → Prop} {a b : Rewriting} {ps qs : List (Piece × Text)}
  {cs : List (Text × Text)}

/-- What a step touches and what is touched behind it. -/
theorem Advances.untouched_iff (h : Advances R a b ps qs cs) :
    Untouched a.changes (pieces a.source)
      ↔ Untouched cs ps ∧ Untouched b.changes (pieces b.source) := by
  rw [h.reads, h.finds]
  exact untouched_append h.endsBefore (fun x hx => (mem_pieces hx).1.length_le) h.startsBefore
    h.startsBehind

/-- **A pass keeps all literals if, and only if, no change starts inside of one**, and it changes
them only as the relation says. The property `P` is what the steps keep to. -/
theorem literals_of_advances {P : Rewriting → Prop}
    (hnil : ∀ a, P a → a.source = [] → a.target = [] ∧ a.changes = [])
    (hstep : ∀ a, P a → a.source ≠ [] → ∃ b ps qs cs, Advances R a b ps qs cs ∧ P b) (ha : P a) :
    List.Forall₂ R (literals a.target) (literals a.source) ∧
      (literals a.target = literals a.source ↔ Untouched a.changes (pieces a.source)) := by
  induction hlength : a.source.length using Nat.strongRecOn generalizing a with
  | ind n ih =>
      by_cases hne : a.source = []
      · obtain ⟨htarget, hchanges⟩ := hnil a ha hne
        rw [htarget, hne, hchanges, literals, pieces_nil]
        exact ⟨.nil, iff_of_true rfl (List.forall_mem_nil _)⟩
      · obtain ⟨b, ps, qs, cs, h, hb⟩ := hstep a ha hne
        obtain ⟨hrelated, hrest⟩ := ih b.source.length (hlength ▸ h.shorter) hb rfl
        have hsource : literals a.source = literalsAmong ps ++ literals b.source := by
          rw [literals, h.reads, literalsAmong_append, literals]
        have htarget : literals a.target = literalsAmong qs ++ literals b.target := by
          rw [literals, h.leaves, literalsAmong_append, literals]
        rw [h.untouched_iff, ← h.kept, ← hrest, hsource, htarget]
        refine ⟨List.rel_append h.related hrelated, fun heq => ?_, ?_⟩
        · exact List.append_inj heq h.related.length_eq
        · rintro ⟨hhere, hbehind⟩
          rw [hhere, hbehind]

end Rewriting

end Sharpen
