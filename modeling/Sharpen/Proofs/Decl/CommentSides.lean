import Mathlib.Data.List.Pairwise
import Sharpen.Decl.ParameterList
import Sharpen.Proofs.Decl.Conserved

/-!
# The Sides of Comments

A block of a parameter list is a row of code and comments. A block comment stands before the
parameter if no content comes before it, and behind it otherwise. A comment up to the end of its
line always stands behind it. The comments before a parameter come first, so the comments of a
parameter keep the order they have in the block unless a line comment precedes one that stands
before the parameter.

The comments are taken out by one pass that keeps the side of the comment it is in. Cutting the
block into pieces first separates what a comment is from where it goes: the pass is the cutting,
followed by sorting the comments into two lists. That the order is kept is then a fact about sorting
a row into two, which is proved for rows of any kind.

## Main definitions

* `blockPieces` — the code and the comments of a block, in order.
* `foundComments` — the comments of a block, and whether content comes before them.
* `BlockPiece` — a character of the code of a block, or one of its comments.
* `BlockPiece.codeText` — the code of a piece.
* `BlockCut` — a block cut into its pieces.

## Main results

* `separateFrom_eq_parts` — what is taken out of a block, by its pieces.
* `map_filter_append_map_filter_eq_iff` — when a row keeps its order in being sorted into two.
* `ParameterBlock.comments_found` — the sides and the order of the comments of a parameter.
-/

namespace Sharpen

/-! ### The pieces of a block -/

/-- A character of the code of a block, or one of its comments. -/
inductive BlockPiece where
  | code (c : Char)
  | comment (t : Text)
deriving DecidableEq, Repr

/-- The text of a piece. -/
def BlockPiece.text : BlockPiece → Text
  | .code c => [c]
  | .comment t => t

/-- The code of a piece. -/
def BlockPiece.codeText : BlockPiece → Text
  | .code c => [c]
  | .comment _ => []

/-- A block cut into its pieces. -/
structure BlockCut where
  /-- The rest of the comment that the scan is inside of. -/
  openComment : Text := []
  pieces : List BlockPiece := []
deriving DecidableEq, Repr

namespace BlockCut

/-- Puts a character in front of the code. -/
def pushCode (c : Char) (b : BlockCut) : BlockCut :=
  { b with pieces := .code c :: b.pieces }

/-- Puts a character in front of the rest of the comment. -/
def pushComment (c : Char) (b : BlockCut) : BlockCut :=
  { b with openComment := c :: b.openComment }

/-- Closes the comment that starts here. -/
def comment (b : BlockCut) : BlockCut :=
  ⟨[], .comment b.openComment :: b.pieces⟩

/-- The text of a block. -/
def text (b : BlockCut) : Text :=
  b.openComment ++ b.pieces.flatMap BlockPiece.text

/-- The mark of an open comment stands in front of a block without one. -/
theorem text_open {b : BlockCut} (hb : b.openComment = []) (mark : Text) :
    { b with openComment := mark }.text = mark ++ b.text := by
  simp only [text, hb, List.nil_append]

/-- So does a character of the code. -/
theorem text_pushCode {b : BlockCut} (hb : b.openComment = []) (c : Char) :
    (b.pushCode c).text = c :: b.text := by
  simp only [text, pushCode, hb, List.nil_append, List.flatMap_cons]
  rfl

end BlockCut

/-- Cuts a block that is reached in the given zone into its pieces. -/
def cutBlockFrom : Zone → Text → BlockCut
  | _, [] => {}
  | .lineComment, c :: r =>
    if c == '\n' then { cutBlockFrom .code r with openComment := [c] }
    else (cutBlockFrom .lineComment r).pushComment c
  | .blockComment, '*' :: '/' :: r => { cutBlockFrom .code r with openComment := "*/" }
  | .blockComment, c :: r => (cutBlockFrom .blockComment r).pushComment c
  | .escaped q, c :: r => (cutBlockFrom (.literal q) r).pushCode c
  | .literal q, c :: r =>
    let zone : Zone := if c == '\\' then .escaped q else if c == q then .code else .literal q
    (cutBlockFrom zone r).pushCode c
  | .code, c :: r =>
    if c == '/' && r.head? == some '/' then
      ((cutBlockFrom .lineComment r).pushComment c).comment
    else if c == '/' && r.head? == some '*' then
      ((cutBlockFrom .blockComment r).pushComment c).comment
    else
      let zone : Zone := if isQuote c then .literal c else .code
      (cutBlockFrom zone r).pushCode c

/-- The code and the comments of a block, in order. -/
def blockPieces (t : Text) : List BlockPiece :=
  (cutBlockFrom .code t).pieces

/-- Outside of comments no comment is open. -/
theorem openComment_cutBlockFrom (zone : Zone) (hline : zone ≠ .lineComment)
    (hblock : zone ≠ .blockComment) (t : Text) : (cutBlockFrom zone t).openComment = [] := by
  fun_induction cutBlockFrom zone t with
  | case1 => rfl
  | case2 => exact absurd rfl hline
  | case3 => exact absurd rfl hline
  | case4 => exact absurd rfl hblock
  | case5 => exact absurd rfl hblock
  | case6 q c r ih => exact ih (by simp) (by simp)
  | case7 q c r zone ih => refine ih ?_ ?_ <;> (unfold zone; split_ifs <;> simp)
  | case8 => rfl
  | case9 => rfl
  | case10 c r hline hblock zone ih => refine ih ?_ ?_ <;> (unfold zone; split_ifs <;> simp)

/-- The pieces of a text, put together again. -/
theorem text_cutBlockFrom (zone : Zone) (t : Text) : (cutBlockFrom zone t).text = t := by
  have hcode : ∀ r, (cutBlockFrom .code r).openComment = [] :=
    openComment_cutBlockFrom .code (by simp) (by simp)
  fun_induction cutBlockFrom zone t with
  | case1 => rfl
  | case2 c r hc b ih => rw [BlockCut.text_open (hcode r), ih]; rfl
  | case3 c r hc ih => exact congrArg (c :: ·) ih
  | case4 r b ih => rw [BlockCut.text_open (hcode r), ih]; rfl
  | case5 c r hclose ih => exact congrArg (c :: ·) ih
  | case6 q c r ih =>
      rw [BlockCut.text_pushCode (openComment_cutBlockFrom _ (by simp) (by simp) r), ih]
  | case7 q c r zone ih =>
      have hzone : zone ≠ .lineComment ∧ zone ≠ .blockComment := by
        unfold zone
        split_ifs <;> simp
      rw [BlockCut.text_pushCode (openComment_cutBlockFrom _ hzone.1 hzone.2 r), ih]
  | case8 c r hline ih => exact congrArg (c :: ·) ih
  | case9 c r hline hblock ih => exact congrArg (c :: ·) ih
  | case10 c r hline hblock zone ih =>
      have hzone : zone ≠ .lineComment ∧ zone ≠ .blockComment := by
        unfold zone
        split_ifs <;> simp
      rw [BlockCut.text_pushCode (openComment_cutBlockFrom _ hzone.1 hzone.2 r), ih]

/-! ### The comments of a block -/

/-- A comment of a block, and whether content comes before it. -/
structure FoundComment where
  text : Text
  follows : Bool
deriving DecidableEq, Repr

namespace FoundComment

/-- Whether a comment runs to the end of its line. -/
def isLine (c : FoundComment) : Bool :=
  c.text.startsWith "//"

/-- The side of the parameter that a comment is put on. -/
def side (c : FoundComment) : CommentSide :=
  if c.isLine || c.follows then .after else .before

/-- The comment of the parameter. -/
def comment (c : FoundComment) : ParamComment :=
  ⟨c.text.trim, c.side⟩

end FoundComment

/-- The comments among pieces; `seen` says whether content came before. -/
def foundFrom : (seen : Bool) → List BlockPiece → List FoundComment
  | _, [] => []
  | seen, .code c :: r => foundFrom (seen || isBlockContent c) r
  | seen, .comment t :: r => ⟨t, seen⟩ :: foundFrom seen r

/-- The comments of a block, in order. -/
def foundComments (t : Text) : List FoundComment :=
  foundFrom false (blockPieces t)

/-- The comments on one side of the parameter. -/
def commentsOn (side : CommentSide) (cs : List FoundComment) : List ParamComment :=
  (cs.filter (·.side == side)).map FoundComment.comment

/-- What a block that is cut into pieces is taken apart into. -/
def BlockCut.parts (seen : Bool) (b : BlockCut) : BlockParts where
  code := b.pieces.flatMap BlockPiece.codeText
  openComment := b.openComment
  before := commentsOn .before (foundFrom seen b.pieces)
  after := commentsOn .after (foundFrom seen b.pieces)

namespace BlockCut

variable (seen : Bool) (c : Char) (b : BlockCut)

/-- One more character of a comment goes to the comment that is open. -/
theorem parts_pushComment : (b.pushComment c).parts seen = (b.parts seen).pushComment c :=
  rfl

/-- A comment goes to its side. -/
theorem parts_comment :
    b.comment.parts seen = (b.parts seen).comment (FoundComment.side ⟨b.openComment, seen⟩) := by
  cases hside : FoundComment.side ⟨b.openComment, seen⟩ <;>
    simp [parts, comment, BlockParts.comment, commentsOn, foundFrom, BlockPiece.codeText, hside,
      FoundComment.comment]

end BlockCut

section

variable {c : Char} {r : Text} (seen : Bool)

/-- The second mark of a comment is its own. -/
theorem head?_openComment {zone : Zone} (hzone : zone = .lineComment ∨ zone = .blockComment)
    {d : Char} (hd : d ≠ '\n') (hr : r.head? = some d) :
    (cutBlockFrom zone r).openComment.head? = some d := by
  obtain ⟨r, rfl⟩ := List.head?_eq_some_iff.mp hr
  obtain rfl | rfl := hzone
  · simp [cutBlockFrom, hd, BlockCut.pushComment]
  · rw [cutBlockFrom.eq_def]
    split <;> simp_all [BlockCut.pushComment]

/-- A comment up to the end of its line stands behind the parameter. -/
theorem side_lineComment (h : (c == '/' && r.head? == some '/') = true) :
    FoundComment.side ⟨((cutBlockFrom .lineComment r).pushComment c).openComment, seen⟩
      = .after := by
  simp only [Bool.and_eq_true, beq_iff_eq] at h
  obtain ⟨rfl, hr⟩ := h
  obtain ⟨u, hu⟩ := List.head?_eq_some_iff.mp (head?_openComment (.inl rfl) (by decide) hr)
  have hline : FoundComment.isLine ⟨'/' :: '/' :: u, seen⟩ = true := rfl
  rw [BlockCut.pushComment, hu, FoundComment.side, hline]
  rfl

/-- A comment with two marks stands on the side that the content decides. -/
theorem side_blockComment (h : (c == '/' && r.head? == some '*') = true) :
    FoundComment.side ⟨((cutBlockFrom .blockComment r).pushComment c).openComment, seen⟩
      = if seen then .after else .before := by
  simp only [Bool.and_eq_true, beq_iff_eq] at h
  obtain ⟨rfl, hr⟩ := h
  obtain ⟨u, hu⟩ := List.head?_eq_some_iff.mp (head?_openComment (.inr rfl) (by decide) hr)
  have hline : FoundComment.isLine ⟨'/' :: '*' :: u, seen⟩ = false := rfl
  rw [BlockCut.pushComment, hu, FoundComment.side, hline]
  rfl

end

/-- **What a block is taken apart into**, by its pieces. -/
theorem separateFrom_eq_parts (zone : Zone) (seen : Bool) (t : Text)
    (hseen : ∀ q, zone = .literal q ∨ zone = .escaped q → seen = true) :
    separateFrom zone seen t = (cutBlockFrom zone t).parts seen := by
  fun_induction separateFrom zone seen t with
  | case1 => rw [cutBlockFrom]; rfl
  | case2 seen c r hc parts ih =>
      rw [cutBlockFrom, if_pos hc]
      unfold parts
      rw [ih (by simp)]
      rfl
  | case3 seen c r hc ih =>
      rw [cutBlockFrom, if_neg hc, ih (by simp)]
      rfl
  | case4 seen r parts ih =>
      rw [cutBlockFrom]
      unfold parts
      rw [ih (by simp)]
      rfl
  | case5 seen c r hclose ih =>
      rw [cutBlockFrom, ih (by simp), BlockCut.parts_pushComment]
      exact hclose
  | case6 q seen c r ih =>
      obtain rfl : seen = true := hseen q (.inr rfl)
      rw [cutBlockFrom, ih (by simp)]
      rfl
  | case7 q seen c r zone ih =>
      obtain rfl : seen = true := hseen q (.inl rfl)
      rw [cutBlockFrom, ih (by simp)]
      rfl
  | case8 seen c r hline ih =>
      rw [cutBlockFrom, if_pos hline, ih (by simp), BlockCut.parts_comment,
        BlockCut.parts_pushComment, side_lineComment seen hline]
  | case9 seen c r hline hblock side ih =>
      rw [cutBlockFrom, if_neg hline, if_pos hblock, ih (by simp), BlockCut.parts_comment,
        BlockCut.parts_pushComment, side_blockComment seen hblock]
  | case10 seen c r hline hblock zone ih =>
      have hquote : ∀ q, zone = .literal q ∨ zone = .escaped q →
          (seen || isBlockContent c) = true := by
        intro q hzone
        have hq : isQuote c = true := by
          by_contra hq
          simp [zone, hq] at hzone
        have hcontent : isBlockContent c = true := by
          obtain rfl | rfl : c = '"' ∨ c = '\'' := by simpa [isQuote] using hq
          · rfl
          · rfl
        rw [hcontent, Bool.or_true]
      rw [cutBlockFrom, if_neg hline, if_neg hblock, ih hquote]
      rfl

/-! ### Sides and order -/

/-- Behind content, comments follow content, and a comment that does is followed by others that
do. -/
theorem foundFrom_follows (seen : Bool) (ps : List BlockPiece) :
    (seen = true → ∀ c ∈ foundFrom seen ps, c.follows = true) ∧
    (foundFrom seen ps).Pairwise fun c d => c.follows = true → d.follows = true := by
  induction ps generalizing seen with
  | nil => simp [foundFrom]
  | cons p ps ih =>
      cases p with
      | code c =>
          obtain ⟨hfollows, hpairs⟩ := ih (seen || isBlockContent c)
          exact ⟨fun hseen => hfollows (by rw [hseen, Bool.true_or]), hpairs⟩
      | comment t =>
          obtain ⟨hfollows, hpairs⟩ := ih seen
          exact ⟨fun hseen => List.forall_mem_cons.mpr ⟨hseen, hfollows hseen⟩,
            List.pairwise_cons.mpr ⟨fun c hc hseen => hfollows hseen c hc, hpairs⟩⟩

/-- **A row that is sorted into two** keeps its order exactly if all that goes to the front stands
in front. Were something sorted to the front behind an element that is not, it would stand where
that element does. -/
theorem map_filter_append_map_filter_eq_iff {α β : Type} {f : α → β} {p q : α → Bool}
    (hpq : ∀ a, q a = !p a) (hf : ∀ a b, f a = f b → p a = p b) (l : List α) :
    (l.filter p).map f ++ (l.filter q).map f = l.map f ↔
      l.Pairwise fun a b => p b = true → p a = true := by
  induction l with
  | nil => simp
  | cons a l ih =>
      rw [List.pairwise_cons]
      by_cases ha : p a = true
      · simp [ha, hpq, ← ih]
      · rw [List.filter_cons_of_neg ha, List.filter_cons_of_pos (by simp [hpq, ha])]
        constructor
        · intro h
          have hnone : l.filter p = [] := by
            cases hfirst : l.filter p with
            | nil => rfl
            | cons b r =>
                rw [hfirst] at h
                have hb : p b = true := (List.mem_filter.mp (hfirst ▸ List.mem_cons_self)).2
                exact absurd ((hf b a (List.cons.inj h).1).symm.trans hb) ha
          rw [hnone] at h
          have hnot : ∀ b ∈ l, p b ≠ true := List.filter_eq_nil_iff.mp hnone
          exact ⟨fun b hb hpb => absurd hpb (hnot b hb),
            List.pairwise_of_forall_mem_list fun _ _ b hb hpb => absurd hpb (hnot b hb)⟩
        · rintro ⟨hnot, -⟩
          have hnot' : ∀ b ∈ l, p b = false := fun b hb => by
            simpa using fun hpb => ha (hnot b hb hpb)
          rw [List.filter_eq_nil_iff.mpr (fun b hb => by simp [hnot' b hb]),
            List.filter_eq_self.mpr (fun b hb => by simp [hpq, hnot' b hb])]
          rfl

/-- The comments before a parameter are those of both marks that no content precedes. -/
theorem FoundComment.side_eq_before_iff (c : FoundComment) :
    c.side = .before ↔ c.isLine = false ∧ c.follows = false := by
  rw [FoundComment.side]
  cases c.isLine <;> cases c.follows <;> decide

/-- **The comments of a parameter.** A block is a row of code and comments. The comments of its
parameter are those of the row, first the block comments without content before them and then all
others. So every side is the one that the content decides exactly if no line comment stands in front
of the content, and the comments keep their order exactly if no line comment precedes a block
comment that stands in front of the content. For what no content precedes is preceded by no content,
and only line comments can be out of order. -/
theorem ParameterBlock.comments_found (b : ParameterBlock) :
    ((blockPieces b.text).flatMap BlockPiece.text = b.text ∧
      (blockPieces b.text).flatMap BlockPiece.codeText = (separateComments b.text).1) ∧
    b.parameter.comments =
      commentsOn .before (foundComments b.text) ++ commentsOn .after (foundComments b.text) ∧
    ((∀ c ∈ foundComments b.text, c.side = .before ↔ c.follows = false) ↔
      ∀ c ∈ foundComments b.text, c.isLine = true → c.follows = true) ∧
    (b.parameter.comments = (foundComments b.text).map FoundComment.comment ↔
      (foundComments b.text).Pairwise fun c d =>
        c.isLine = true → d.isLine = true ∨ d.follows = true) := by
  have hparts : separateFrom .code false b.text = (cutBlockFrom .code b.text).parts false :=
    separateFrom_eq_parts .code false b.text (by simp)
  have hcomments : b.parameter.comments =
      commentsOn .before (foundComments b.text) ++ commentsOn .after (foundComments b.text) := by
    change (separateFrom .code false b.text).before ++ (separateFrom .code false b.text).after = _
    rw [hparts]
    rfl
  refine ⟨⟨?_, ?_⟩, hcomments, ?_, ?_⟩
  · have htext := text_cutBlockFrom .code b.text
    rwa [BlockCut.text, openComment_cutBlockFrom .code (by simp) (by simp)] at htext
  · change _ = (separateFrom .code false b.text).code
    rw [hparts]
    rfl
  · refine forall₂_congr fun c _ => ?_
    rw [FoundComment.side_eq_before_iff]
    cases c.isLine <;> cases c.follows <;> simp
  · have hsides : ∀ c d : FoundComment, c.comment = d.comment →
        (c.side == .before) = (d.side == .before) := fun c d h => by
      rw [show c.side = d.side from congrArg ParamComment.side h]
    have hafter : ∀ c : FoundComment, (c.side == .after) = !(c.side == .before) := fun c => by
      cases c.side <;> rfl
    obtain ⟨-, hfollows⟩ := foundFrom_follows false (blockPieces b.text)
    rw [hcomments, commentsOn, commentsOn, map_filter_append_map_filter_eq_iff hafter hsides]
    simp only [beq_iff_eq, FoundComment.side_eq_before_iff]
    constructor
    · refine fun h => h.imp fun {c d} hcd hline => ?_
      by_contra hd
      have hfront : d.isLine = false ∧ d.follows = false := by simpa using hd
      exact absurd hline (by simp [(hcd hfront).1])
    · refine fun h => (h.and hfollows).imp fun {c d} hcd hd => ?_
      have hline : c.isLine ≠ true := fun hc => by simpa [hd] using hcd.1 hc
      have hfollow : c.follows ≠ true := fun hc => by simpa [hd] using hcd.2 hc
      exact ⟨by simpa using hline, by simpa using hfollow⟩

/-- The comments of a parameter are not always those of its block in their order, each on the side
that the content decides. -/
theorem not_forall_comments_follow :
    ¬ ∀ b : ParameterBlock, b.parameter.comments = (foundComments b.text).map fun c =>
      ⟨c.text.trim, if c.follows then .after else .before⟩ := by
  intro h
  exact absurd (h ⟨"// note\nint a", false, 0⟩) (by decide +kernel)

end Sharpen
