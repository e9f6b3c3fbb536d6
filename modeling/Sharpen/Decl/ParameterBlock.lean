import Sharpen.Code.Mask
import Sharpen.Decl.Basic
import Sharpen.Text.Blank

/-!
# Parameter blocks

The text between a method's parentheses is cut into blocks at its separator commas. A block holds
one parameter with the comments that belong to it, and comments can stand anywhere.

A comment behind a separator may belong to the parameter before it. It is claimed if it ends the
line, and otherwise left to the next parameter. The comments that are taken out of a block stand
before the parameter or behind it, depending on whether anything but comments and blanks came before
them.

## Main definitions

* `claimTrailing` decides how much of the text after a separator comma still belongs to the
  parameter before it.
* `parameterBlocks` cuts a parameter list into blocks, and `numberedBlocks` gives them their
  indexes.
* `separateComments` takes the comments out of a block.
* `ParameterBlock` is the text of one parameter with its comments, and how it was laid out.
* `Claim` is what a separator comma hands to the parameter before it.
* `BlockState` says where the cutting into blocks stands.
-/

namespace Sharpen

/-- The text of one parameter with its comments, and how it was laid out. -/
structure ParameterBlock where
  text : Text
  onNewLine : Bool
  indent : Nat
deriving DecidableEq, Repr

/-! ### Comments after a comma -/

/-- A block comment from its opening mark on, up to and with its closing mark, and the text after
it; the comment takes all of the text if it is not closed. -/
def cutBlockComment (t : Text) : Text × Text :=
  match Text.find? "*/" (t.drop 2) with
  | some i => (t.take (i + 4), t.drop (i + 4))
  | none => (t, [])

/-- What a separator comma hands to the parameter before it. -/
structure Claim where
  /-- The text after the comma that belongs to the parameter before it. -/
  claimed : Text
  /-- The text of the following parameters. -/
  rest : Text
  /-- Whether the claimed text ended a line. -/
  endsLine : Bool
deriving DecidableEq, Repr

/-- A claim of the first `n` characters. -/
def Claim.take (t : Text) (n : Nat) (endsLine : Bool) : Claim :=
  ⟨t.take n, t.drop n, endsLine⟩

/-- Decides how much of the text after a separator comma belongs to the parameter before it: a
line comment always, a block comment only when nothing else follows it on its line. -/
def claimTrailing (t : Text) : Claim :=
  let blanks := t.takeWhile isSpaceOrTab
  let r : Text := t.drop blanks.length
  if r.startsWith "//" then
    match r.findIdx? (· == '\n') with
    | some i => Claim.take t (blanks.length + i + 1) true
    | none => Claim.take t t.length false
  else if r.startsWith "/*" then
    let (comment, after) := cutBlockComment r
    let gap := after.takeWhile fun c => isSpaceOrTab c || c == '\r'
    let past := blanks.length + comment.length
    match after.drop gap.length with
    | [] => Claim.take t past false
    | '\n' :: _ => Claim.take t (past + gap.length + 1) true
    | _ :: _ => Claim.take t 0 false
  else Claim.take t 0 false

/-- What is left after a claim is no longer than the text. -/
theorem length_rest_claimTrailing_le (t : Text) : (claimTrailing t).rest.length ≤ t.length := by
  simp only [claimTrailing]
  repeat' split
  all_goals simp [Claim.take]

/-! ### Cutting into blocks -/

/-- Where the cutting into blocks stands. -/
structure BlockState where
  zone : Zone := .code
  parens : Nat := 0
  angles : Nat := 0
  /-- Whether a newline came before the block's first content. -/
  onNewLine : Bool := false
  /-- The number of blanks between that newline and the content. -/
  indent : Nat := 0
  /-- Whether content has been seen. -/
  started : Bool := false
deriving DecidableEq, Repr

/-- The state behind a newline: a line comment ends, and a block without content starts on the new
line. -/
def BlockState.newline (s : BlockState) : BlockState :=
  { s with
    zone := if s.zone == .lineComment then .code else s.zone
    onNewLine := s.onNewLine || !s.started }

/-- The rest of the block the scan is inside of, with the layout it turned out to have, and the
blocks after it. -/
structure BlockTail where
  text : Text
  onNewLine : Bool
  indent : Nat
  more : List ParameterBlock
deriving DecidableEq, Repr

/-- Puts a character in front of the rest of the block. -/
def BlockTail.push (c : Char) (b : BlockTail) : BlockTail :=
  { b with text := c :: b.text }

/-- The blocks of a tail; a block with nothing but blanks is dropped. -/
def BlockTail.blocks (b : BlockTail) : List ParameterBlock :=
  if b.text.isBlank then b.more else ⟨b.text, b.onNewLine, b.indent⟩ :: b.more

/-- Cuts a text that is reached in state `s`. -/
def blocksFrom (s : BlockState) : Text → BlockTail
  | [] => ⟨[], s.onNewLine, s.indent, []⟩
  | c :: r =>
    if c == '\n' then (blocksFrom s.newline r).push c
    else
      match s.zone with
      | .escaped q => (blocksFrom { s with zone := .literal q } r).push c
      | .literal q =>
        let zone : Zone := if c == '\\' then .escaped q else if c == q then .code else .literal q
        (blocksFrom { s with zone := zone } r).push c
      | .lineComment => (blocksFrom s r).push c
      | .blockComment =>
        match r with
        | [] => (blocksFrom s []).push c
        | d :: r' =>
          if c == '*' && d == '/' then ((blocksFrom { s with zone := .code } r').push d).push c
          else (blocksFrom s (d :: r')).push c
      | .code =>
        if isQuote c then (blocksFrom { s with zone := .literal c } r).push c
        else if c == '/' && r.head? == some '/' then
          (blocksFrom { s with zone := .lineComment } r).push c
        else if c == '/' && r.head? == some '*' then
          (blocksFrom { s with zone := .blockComment } r).push c
        else if c == '(' then (blocksFrom { s with parens := s.parens + 1 } r).push c
        else if c == ')' then (blocksFrom { s with parens := s.parens - 1 } r).push c
        else if c == '<' then (blocksFrom { s with angles := s.angles + 1 } r).push c
        else if c == '>' then (blocksFrom { s with angles := s.angles - 1 } r).push c
        else if !s.started && isSpaceOrTab c then
          let indent := if s.onNewLine then s.indent + 1 else s.indent
          (blocksFrom { s with indent := indent } r).push c
        else if c == ',' && s.parens == 0 && s.angles == 0 then
          let claim := claimTrailing r
          ⟨claim.claimed, s.onNewLine, s.indent,
            (blocksFrom { onNewLine := claim.endsLine } claim.rest).blocks⟩
        else
          let started := s.started || c != '\r'
          (blocksFrom { s with started := started } r).push c
termination_by t => t.length
decreasing_by
  all_goals simp only [List.length_cons]
  all_goals first | omega | exact Nat.lt_succ_of_le (length_rest_claimTrailing_le _)

/-- The blocks of a parameter list. -/
def parameterBlocks (t : Text) : List ParameterBlock :=
  (blocksFrom {} t).blocks

/-- A block with its index among the blocks that are kept. -/
structure NumberedBlock extends ParameterBlock where
  index : Nat
deriving DecidableEq, Repr

/-- The blocks of a parameter list with their indexes. -/
def numberedBlocks (t : Text) : List NumberedBlock :=
  (parameterBlocks t).mapIdx fun i b => { b with index := i }

/-! ### Comments inside a block -/

/-- A block taken apart. -/
structure BlockParts where
  /-- The block without its comments. -/
  code : Text := []
  /-- The rest of the comment that the scan is inside of. -/
  openComment : Text := []
  /-- The comments before the parameter. -/
  before : List ParamComment := []
  /-- The comments after it. -/
  after : List ParamComment := []
deriving DecidableEq, Repr

/-- Puts a character in front of the code. -/
def BlockParts.pushCode (c : Char) (p : BlockParts) : BlockParts :=
  { p with code := c :: p.code }

/-- Puts a character in front of the rest of the comment. -/
def BlockParts.pushComment (c : Char) (p : BlockParts) : BlockParts :=
  { p with openComment := c :: p.openComment }

/-- Closes the comment that starts here, as one on the given side. -/
def BlockParts.comment (side : CommentSide) (p : BlockParts) : BlockParts :=
  let comment : ParamComment := ⟨p.openComment.trim, side⟩
  match side with
  | .before => { p with openComment := [], before := comment :: p.before }
  | .after => { p with openComment := [], after := comment :: p.after }

/-- Content is everything that is neither blank on its line, nor a line break, nor a comma. -/
def isBlockContent (c : Char) : Bool :=
  !(isSpaceOrTab c || c == '\n' || c == '\r' || c == ',')

/-- Takes the comments out of a block that is reached in the given zone; `seen` says whether
content came before. -/
def separateFrom : Zone → (seen : Bool) → Text → BlockParts
  | _, _, [] => {}
  | .lineComment, seen, c :: r =>
    if c == '\n' then { separateFrom .code seen r with openComment := [c] }
    else (separateFrom .lineComment seen r).pushComment c
  | .blockComment, seen, '*' :: '/' :: r =>
    { separateFrom .code seen r with openComment := "*/" }
  | .blockComment, seen, c :: r => (separateFrom .blockComment seen r).pushComment c
  | .escaped q, seen, c :: r => (separateFrom (.literal q) seen r).pushCode c
  | .literal q, seen, c :: r =>
    let zone : Zone := if c == '\\' then .escaped q else if c == q then .code else .literal q
    (separateFrom zone seen r).pushCode c
  | .code, seen, c :: r =>
    if c == '/' && r.head? == some '/' then
      ((separateFrom .lineComment seen r).pushComment c).comment .after
    else if c == '/' && r.head? == some '*' then
      let side : CommentSide := if seen then .after else .before
      ((separateFrom .blockComment seen r).pushComment c).comment side
    else
      let zone : Zone := if isQuote c then .literal c else .code
      (separateFrom zone (seen || isBlockContent c) r).pushCode c

/-- A block without its comments, the comments before the parameter and those after it. -/
def separateComments (t : Text) : Text × List ParamComment × List ParamComment :=
  let parts := separateFrom .code false t
  (parts.code, parts.before, parts.after)

end Sharpen
