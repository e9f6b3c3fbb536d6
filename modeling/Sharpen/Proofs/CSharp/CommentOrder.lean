import Mathlib.Data.List.Infix
import Sharpen.Proofs.CSharp.CommentedSignature
import Sharpen.Decl.ParameterList

/-!
# The Order of Comments in a Signature

The block comments behind a parameter are written in their order. Those before it are put in front
of its text one after the other, so the last of them comes first, and the line is the one that keeps
the order only if their order is the same in both directions.

The order in which a line has the comments is read off the line alone, without the parameter: a
comment ends at its first closing mark, so that comments in a row can be told apart and there is
only one way to find them. That makes the condition exact: the line keeps the order just if the row
reads the same from both ends, which one comment does, and two only if they are equal. Comments up
to the end of a line are not concerned, for each has a line of its own or ends one.

## Main definitions

* `occursInOrder` — whether texts occur in a text one behind the other.

## Main results

* `occursInOrder_mainLine` — the order in which a line has the comments of its parameter.
* `flatMap_blocks_injective` — block comments in a row can be told apart.
* `signatureLines_blocks` — the lines of a signature, and which of them keep the order.
-/

namespace Sharpen

/-! ### Texts one behind the other -/

/-- Whether texts occur in a text in their order, without overlap. -/
def occursInOrder : List Text → Text → Bool
  | [], _ => true
  | t :: ts, l => l.tails.any fun u => t.isPrefixOf u && occursInOrder ts (u.drop t.length)

/-- A text that occurs, with the others behind it. -/
theorem occursInOrder_cons {t : Text} {ts : List Text} {u : Text} (h : occursInOrder ts u = true)
    (front : Text) : occursInOrder (t :: ts) (front ++ (t ++ u)) = true := by
  refine List.any_eq_true.mpr ⟨t ++ u, (List.mem_tails _ _).mpr (List.suffix_append front _), ?_⟩
  rw [Bool.and_eq_true, List.isPrefixOf_iff_prefix, List.drop_left]
  exact ⟨List.prefix_append t u, h⟩

/-- Texts occur in their order where each of them has another text in front of it. -/
theorem occursInOrder_flatMap (before behind : Text) (ts : List Text) {us : List Text} {u : Text}
    (h : ∀ front, occursInOrder us (front ++ u) = true) (front : Text) :
    occursInOrder (ts ++ us) (front ++ (ts.flatMap (fun t => before ++ t ++ behind) ++ u)) := by
  induction ts generalizing front with
  | nil => exact h front
  | cons t ts ih =>
      have hsplit : front ++ ((t :: ts).flatMap (fun t => before ++ t ++ behind) ++ u)
          = (front ++ before) ++
            (t ++ (behind ++ (ts.flatMap (fun t => before ++ t ++ behind) ++ u)))
          := by
        simp
      rw [List.cons_append, hsplit]
      exact occursInOrder_cons (ih behind) _

/-- **The line of a parameter** has the comments that are put in front of the text, the text and the
block comments behind it in this order. -/
theorem occursInOrder_mainLine (types : TypeMap) (p : Parameter) (i : Nat) (isLast : Bool)
    (before : List Text) :
    occursInOrder (before ++ parameterText types p i :: p.blocksAfter)
      (p.mainLine types i isLast before) = true := by
  have hafter : ∀ front, occursInOrder p.blocksAfter
      (front ++ (p.blocksAfter.flatMap (' ' :: ·) ++ p.lineEnd isLast)) = true := by
    have hnil : ∀ front, occursInOrder [] (front ++ p.lineEnd isLast) = true := fun _ => rfl
    simpa using occursInOrder_flatMap [' '] [] p.blocksAfter hnil
  have htext : ∀ front, occursInOrder (parameterText types p i :: p.blocksAfter)
      (front ++ (parameterText types p i ++
        (p.blocksAfter.flatMap (' ' :: ·) ++ p.lineEnd isLast))) = true :=
    occursInOrder_cons (hafter [])
  have hline := occursInOrder_flatMap [] [' '] before htext ['\t']
  simpa [Parameter.mainLine, Parameter.withBlocks] using hline

/-! ### Block comments in a row -/

/-- No block comment is the beginning of another one. -/
theorem IsBlockComment.append_inj {t u a b : Text} (ht : IsBlockComment t) (hu : IsBlockComment u)
    (h : t ++ a = u ++ b) : t = u ∧ a = b := by
  obtain ⟨c, rfl, hc⟩ := ht
  obtain ⟨d, rfl, hd⟩ := hu
  have hcontent : c ++ '*' :: '/' :: a = d ++ '*' :: '/' :: b := by
    simpa using h
  have hlength : c.length = d.length := by
    have hfind := find?_closeMark hc a
    rw [hcontent, find?_closeMark hd b] at hfind
    exact (Option.some.inj hfind).symm
  obtain ⟨rfl, hrest⟩ := List.append_inj hcontent hlength
  exact ⟨rfl, by simpa using hrest⟩

/-- **Block comments in a row** can be told apart. -/
theorem flatMap_blocks_injective {ts us : List Text} (hts : ∀ t ∈ ts, IsBlockComment t)
    (hus : ∀ u ∈ us, IsBlockComment u)
    (h : ts.flatMap (· ++ [' ']) = us.flatMap (· ++ [' '])) : ts = us := by
  induction ts generalizing us with
  | nil =>
      cases us with
      | nil => rfl
      | cons u us => simp at h
  | cons t ts ih =>
      cases us with
      | nil => simp at h
      | cons u us =>
          obtain ⟨ht, htail⟩ := List.forall_mem_cons.mp hts
          obtain ⟨hu, hrow⟩ := List.forall_mem_cons.mp hus
          rw [List.flatMap_cons, List.flatMap_cons, List.append_assoc, List.append_assoc] at h
          obtain ⟨rfl, hrest⟩ := ht.append_inj hu h
          rw [ih htail hrow (List.append_cancel_left hrest)]

/-- The comments in front of a parameter are seen in its line. -/
theorem mainLine_inj {types : TypeMap} {p : Parameter} {i : Nat} {isLast : Bool}
    {ts us : List Text} (hts : ∀ t ∈ ts, IsBlockComment t) (hus : ∀ u ∈ us, IsBlockComment u) :
    p.mainLine types i isLast ts = p.mainLine types i isLast us ↔ ts = us := by
  refine ⟨fun h => flatMap_blocks_injective hts hus ?_, fun h => h ▸ rfl⟩
  simp only [Parameter.mainLine, Parameter.withBlocks, List.cons.injEq, true_and] at h
  exact List.append_cancel_right (List.append_cancel_right h)

/-! ### The lines of a signature -/

/-- **The comments of a signature**: every parameter has its line comments, its line, and perhaps
the parenthesis. In its line the block comments before the text have the opposite order and those
behind it their own. So the line is the one that keeps the order of both exactly if the order of the
comments before the text is the same in both directions. -/
theorem signatureLines_blocks (types : TypeMap) (head : Text) (ps : List Parameter)
    (hany : ∃ p ∈ ps, p.comments ≠ []) (hcomments : ∀ p ∈ ps, ∀ c ∈ p.comments, c.IsWhole) :
    signatureLines types head ps = (head ++ "(") :: (ps.mapIdx fun i p =>
      p.linesBefore.map ('\t' :: ·) ++
        p.mainLine types i (i + 1 == ps.length) p.blocksBefore.reverse ::
          p.closingLine (i + 1 == ps.length)).flatten ∧
    ∀ (i : Nat) (p : Parameter), ps[i]? = some p →
      occursInOrder (p.blocksBefore.reverse ++ parameterText types p i :: p.blocksAfter)
        (p.mainLine types i (i + 1 == ps.length) p.blocksBefore.reverse) = true ∧
      (p.mainLine types i (i + 1 == ps.length) p.blocksBefore.reverse
          = p.mainLine types i (i + 1 == ps.length) p.blocksBefore ↔
        p.blocksBefore.reverse = p.blocksBefore) := by
  constructor
  · have hsome : (ps.any fun p => !p.comments.isEmpty) = true := by
      simpa using hany
    rw [signatureLines, if_pos hsome]
    simp only [parameterLines_eq]
  · intro i p hp
    obtain ⟨-, hblocks, -, -⟩ := Parameter.rows_whole (hcomments p (List.mem_of_getElem? hp))
    exact ⟨occursInOrder_mainLine types p i _ _,
      mainLine_inj (fun t ht => hblocks t (List.mem_reverse.mp ht)) hblocks⟩

/-- One parameter with two comments before it and two behind it. -/
theorem signatureLines_blocks_pair :
    let p : Parameter := {
      baseType := "int", name := "x",
      comments := [⟨"/* a */", .before⟩, ⟨"/* b */", .before⟩, ⟨"/* c */", .after⟩,
        ⟨"/* d */", .after⟩] }
    ((∃ q ∈ [p], q.comments ≠ []) ∧ ∀ q ∈ [p], ∀ c ∈ q.comments, c.IsWhole) ∧
    signatureLines [] "void f" [p] = ["void f(", "\t/* b */ /* a */ int x /* c */ /* d */)"] ∧
    p.mainLine [] 0 true p.blocksBefore.reverse ≠ p.mainLine [] 0 true p.blocksBefore := by
  intro p
  have hcomments : ∀ q ∈ [p], ∀ c ∈ q.comments, c.IsWhole := by
    refine List.forall_mem_singleton.mpr (List.forall_mem_cons.mpr ⟨?_, List.forall_mem_cons.mpr
      ⟨?_, List.forall_mem_cons.mpr ⟨?_, List.forall_mem_singleton.mpr ?_⟩⟩⟩)
    · exact isWhole_of_isBlockComment ⟨" a ", rfl, by decide⟩ _
    · exact isWhole_of_isBlockComment ⟨" b ", rfl, by decide⟩ _
    · exact isWhole_of_isBlockComment ⟨" c ", rfl, by decide⟩ _
    · exact isWhole_of_isBlockComment ⟨" d ", rfl, by decide⟩ _
  obtain ⟨hlines, hrows⟩ :=
    signatureLines_blocks [] "void f" [p] ⟨p, by simp, by decide⟩ hcomments
  refine ⟨⟨⟨p, by simp, by decide⟩, hcomments⟩, ?_, ?_⟩
  · rw [hlines]
    decide +kernel
  · exact (hrows 0 p rfl).2.not.mpr (by decide)

/-- The lines of a signature do not always have the comments of a parameter in their order. -/
theorem not_forall_occursInOrder :
    ¬ ∀ (types : TypeMap) (head : Text) (ps : List Parameter) (i : Nat) (p : Parameter),
      ps[i]? = some p → (∃ q ∈ ps, q.comments ≠ []) →
      occursInOrder (p.blocksBefore ++ parameterText types p i :: p.blocksAfter)
        (Text.join "\n" (signatureLines types head ps)) = true := by
  intro h
  let ps := parseParameters "/* a */ /* b */ int x"
  have hp : ps[0]? = some (ps.headD default) := by decide +kernel
  have hmem : ps.headD default ∈ ps := by decide +kernel
  have horder := h [] "void f" ps 0 _ hp ⟨_, hmem, by decide +kernel⟩
  exact absurd horder (by decide +kernel)

end Sharpen
