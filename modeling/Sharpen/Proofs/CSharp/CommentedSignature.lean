import Sharpen.CSharp.Method
import Sharpen.Proofs.Code.CodeOnly
import Sharpen.Proofs.Code.StringLiteral

/-!
# Signatures With Comments

A signature with comments has one line for each parameter, and comments of both kinds before and
after its text. A comment up to the end of its line hides all that is behind it there, so a comma or
a parenthesis must not get behind one. None does: without its comments and its spacing such a
signature is the one that is written for the same parameters on one line.

The comments of a parameter fall into four rows, by their side and by their kind, and the lines of
the parameter are put together from these rows. So the statement about one parameter is made from
four statements about rows, and the one about a signature by induction on the parameters. The last
parameter differs from the others, since the parenthesis behind it takes the place of the comma; and
the text behind the parenthesis may be of any kind.

## Main definitions

* `Parameter.linesBefore` — the comments before a parameter that have lines of their own.
* `Parameter.blocksBefore` — the comments before it that stand on its line.
* `Parameter.linesAfter` — the comments after it that end its line.
* `Parameter.blocksAfter` — the comments after it that stand on its line.
* `Parameter.withBlocks` — a parameter with the comments `before` in front of its text and with
  those behind it.

## Main results

* `parameterLines_eq` — the lines of a parameter, by the four rows of its comments.
* `codeOnly_parameterLines_init`, `codeOnly_parameterLines_last` — the code of the lines of one
  parameter.
* `codeOnly_signatureLines` — a signature with comments has the code of one without them.
* `signature_eq_foldl` — writing a signature is writing its lines, with the ending behind the last
  of them.
-/

namespace Sharpen

/-! ### The rows of comments -/

namespace Parameter

variable (p : Parameter)

/-- The comments before a parameter that have lines of their own. -/
def linesBefore : List Text :=
  (p.commentsBefore.filter ParamComment.isLine).map (·.text)

/-- The comments before it that stand on its line. -/
def blocksBefore : List Text :=
  (p.commentsBefore.filter fun c => !c.isLine).map (·.text)

/-- The comments after it that end its line. -/
def linesAfter : List Text :=
  (p.commentsAfter.filter ParamComment.isLine).map (·.text)

/-- The comments after it that stand on its line. -/
def blocksAfter : List Text :=
  (p.commentsAfter.filter fun c => !c.isLine).map (·.text)

/-- A parameter with the comments `before` in front of its text and with those behind it. -/
def withBlocks (types : TypeMap) (i : Nat) (before : List Text) : Text :=
  before.flatMap (· ++ [' ']) ++ (parameterText types p i ++ p.blocksAfter.flatMap (' ' :: ·))

/-- What ends the line of a parameter: the comma or the parenthesis, which comes before comments
that end the line. Behind the last of them the parenthesis has a line of its own. -/
def lineEnd (isLast : Bool) : Text :=
  if p.linesAfter.isEmpty then (if isLast then ")" else ",")
  else (if isLast then [] else [',']) ++ ' ' :: Text.join " " p.linesAfter

/-- The line of a parameter, with the comments `before` in front of its text. -/
def mainLine (types : TypeMap) (i : Nat) (isLast : Bool) (before : List Text) : Text :=
  '\t' :: (p.withBlocks types i before ++ p.lineEnd isLast)

/-- The parenthesis on a line of its own, where it has one. -/
def closingLine (isLast : Bool) : List Text :=
  if isLast && !p.linesAfter.isEmpty then [[')']] else []

end Parameter

/-- Putting comments in front of a text one after the other puts the last of them first. -/
theorem foldl_comments_eq (cs : List ParamComment) (t : Text) :
    cs.foldl (fun (text : Text) (c : ParamComment) => c.text ++ " " ++ text) t
      = (cs.map (·.text)).reverse.flatMap (· ++ [' ']) ++ t := by
  induction cs generalizing t with
  | nil => rfl
  | cons c r ih =>
      rw [List.foldl_cons, ih, List.map_cons, List.reverse_cons, List.flatMap_append]
      simp

/-- Texts that are joined by spaces, with a space in front, have a space in front of each. -/
theorem join_space_eq {ts : List Text} (h : ts ≠ []) :
    ' ' :: Text.join " " ts = ts.flatMap (' ' :: ·) := by
  induction ts with
  | nil => exact absurd rfl h
  | cons t ts ih =>
      cases ts with
      | nil => simp [Text.join]
      | cons u ts =>
          rw [join_cons_cons, List.flatMap_cons, ← ih (by simp)]
          rfl

/-- **The lines of a parameter**: the line comments before it, its own line with the block comments,
of which those before it stand in the opposite order, and perhaps the parenthesis. -/
theorem parameterLines_eq (types : TypeMap) (p : Parameter) (i : Nat) (isLast : Bool) :
    parameterLines types p i isLast = p.linesBefore.map ('\t' :: ·) ++
      p.mainLine types i isLast p.blocksBefore.reverse :: p.closingLine isLast := by
  have hafter : (if p.blocksAfter.isEmpty then [] else ' ' :: Text.join " " p.blocksAfter)
      = p.blocksAfter.flatMap (' ' :: ·) := by
    split
    · rename_i hnil
      rw [List.isEmpty_iff.mp hnil]
      rfl
    · rename_i hne
      exact join_space_eq (by simpa using hne)
  have hrows : parameterLines types p i isLast =
      let line := p.withBlocks types i p.blocksBefore.reverse
      let closing : Text := if isLast then ")" else ","
      p.linesBefore.map ('\t' :: ·) ++
        (if p.linesAfter.isEmpty then ['\t' :: (line ++ closing)]
        else if isLast then ['\t' :: (line ++ " " ++ Text.join " " p.linesAfter), ")"]
        else ['\t' :: (line ++ closing ++ " " ++ Text.join " " p.linesAfter)]) := by
    rw [Parameter.withBlocks, ← hafter, Parameter.blocksBefore, ← List.append_assoc,
      ← foldl_comments_eq, Parameter.linesBefore, List.map_map]
    rfl
  rw [hrows, Parameter.mainLine, Parameter.lineEnd, Parameter.closingLine]
  cases p.linesAfter with
  | nil => simp
  | cons t ts => cases isLast <;> simp

/-! ### Comments on their lines -/

/-- A comment up to its closing mark. -/
def IsBlockComment (t : Text) : Prop :=
  ∃ c : Text, t = '/' :: '*' :: (c ++ ['*', '/']) ∧ c.hasInfix "*/" = false

/-- A comment up to the end of its line. -/
def IsLineComment (t : Text) : Prop :=
  ∃ c : Text, t = '/' :: '/' :: c ∧ '\n' ∉ c

/-- A comment is whole if it is on one line, or has its two marks and no closing mark between
them. -/
structure ParamComment.IsWhole (c : ParamComment) : Prop where
  line : c.isLine = true → '\n' ∉ c.text
  block : c.isLine = false → IsBlockComment c.text

/-- A comment up to the end of its line is a whole comment. -/
theorem isWhole_of_isLineComment {t : Text} (h : IsLineComment t) (side : CommentSide) :
    (⟨t, side⟩ : ParamComment).IsWhole := by
  obtain ⟨c, rfl, hc⟩ := h
  exact ⟨fun _ => by simpa using hc, nofun⟩

/-- So is a comment with a closing mark. -/
theorem isWhole_of_isBlockComment {t : Text} (h : IsBlockComment t) (side : CommentSide) :
    (⟨t, side⟩ : ParamComment).IsWhole := by
  obtain ⟨c, rfl, hc⟩ := h
  exact ⟨nofun, fun _ => ⟨c, rfl, hc⟩⟩

section

variable {ts : List Text}

/-- Comments in front of a text add no code to it. -/
theorem codeOnly_blocksBefore (h : ∀ t ∈ ts, IsBlockComment t) (u : Text) :
    codeOnly (ts.flatMap (· ++ [' ']) ++ u) = codeOnly u := by
  induction ts with
  | nil => rfl
  | cons t ts ih =>
      obtain ⟨⟨c, rfl, hc⟩, hts⟩ := List.forall_mem_cons.mp h
      have hsplit : List.flatMap (· ++ [' ']) (('/' :: '*' :: (c ++ ['*', '/'])) :: ts) ++ u
          = '/' :: '*' :: (c ++ '*' :: '/' :: ' ' :: (ts.flatMap (· ++ [' ']) ++ u)) := by
        simp
      rw [hsplit, codeOnly_blockComment hc, codeOnly_cons_of_isBlank rfl, ih hts]

/-- Nor do they when a blank is in front of each. -/
theorem codeOnly_blocksAfter (h : ∀ t ∈ ts, IsBlockComment t) (u : Text) :
    codeOnly (ts.flatMap (' ' :: ·) ++ u) = codeOnly u := by
  induction ts with
  | nil => rfl
  | cons t ts ih =>
      obtain ⟨⟨c, rfl, hc⟩, hts⟩ := List.forall_mem_cons.mp h
      have hsplit : List.flatMap (' ' :: ·) (('/' :: '*' :: (c ++ ['*', '/'])) :: ts) ++ u
          = ' ' :: '/' :: '*' :: (c ++ '*' :: '/' :: (ts.flatMap (' ' :: ·) ++ u)) := by
        simp
      rw [hsplit, codeOnly_cons_of_isBlank rfl, codeOnly_blockComment hc, ih hts]

/-- Joined comments up to the end of their line are such a comment. -/
theorem isLineComment_join (h : ∀ t ∈ ts, IsLineComment t) (hne : ts ≠ []) :
    IsLineComment (Text.join " " ts) := by
  induction ts with
  | nil => exact absurd rfl hne
  | cons t ts ih =>
      obtain ⟨⟨c, rfl, hc⟩, hts⟩ := List.forall_mem_cons.mp h
      cases ts with
      | nil => exact ⟨c, by simp [Text.join], hc⟩
      | cons u ts =>
          obtain ⟨d, hjoin, hd⟩ := ih hts (by simp)
          refine ⟨c ++ ' ' :: '/' :: '/' :: d, ?_, by simp [hc, hd]⟩
          rw [join_cons_cons, hjoin]
          simp

/-- A comment up to the end of its line adds no code, if its line ends. -/
theorem IsLineComment.codeOnly {t : Text} (h : IsLineComment t) (u : Text) :
    Sharpen.codeOnly (t ++ '\n' :: u) = Sharpen.codeOnly u := by
  obtain ⟨c, rfl, hc⟩ := h
  exact codeOnly_lineComment hc u

/-- Comments on lines of their own leave no trace. -/
theorem codeOnly_linesBefore (h : ∀ t ∈ ts, IsLineComment t) (u : Text) :
    codeOnly ((ts.map ('\t' :: ·)).flatMap (· ++ ['\n']) ++ u) = codeOnly u := by
  induction ts with
  | nil => rfl
  | cons t ts ih =>
      obtain ⟨ht, hts⟩ := List.forall_mem_cons.mp h
      have hsplit : ((t :: ts).map ('\t' :: ·)).flatMap (· ++ ['\n']) ++ u
          = '\t' :: (t ++ '\n' :: ((ts.map ('\t' :: ·)).flatMap (· ++ ['\n']) ++ u)) := by
        simp
      rw [hsplit, codeOnly_cons_of_isBlank rfl, ht.codeOnly, ih hts]

end

/-- The four rows of a parameter with whole comments. -/
theorem Parameter.rows_whole {p : Parameter} (h : ∀ c ∈ p.comments, c.IsWhole) :
    (∀ t ∈ p.linesBefore, IsLineComment t) ∧ (∀ t ∈ p.blocksBefore, IsBlockComment t) ∧
    (∀ t ∈ p.linesAfter, IsLineComment t) ∧ ∀ t ∈ p.blocksAfter, IsBlockComment t := by
  have hline : ∀ c ∈ p.comments, c.isLine = true → IsLineComment c.text := by
    intro c hc hline
    obtain ⟨r, hr⟩ : ∃ r, '/' :: '/' :: r = c.text := List.isPrefixOf_iff_prefix.mp hline
    have hnewline := (h c hc).line hline
    rw [← hr] at hnewline ⊢
    exact ⟨r, rfl, by simpa using hnewline⟩
  have hmem : ∀ {q q' : ParamComment → Bool} {c : ParamComment},
      c ∈ (p.comments.filter q).filter q' → c ∈ p.comments ∧ q' c = true := by
    intro q q' c hc
    exact ⟨List.mem_of_mem_filter (List.mem_of_mem_filter hc), (List.mem_filter.mp hc).2⟩
  refine ⟨?_, ?_, ?_, ?_⟩ <;> refine List.forall_mem_map.mpr fun c hc => ?_
  · exact hline c (hmem hc).1 (hmem hc).2
  · exact (h c (hmem hc).1).block (by simpa using (hmem hc).2)
  · exact hline c (hmem hc).1 (hmem hc).2
  · exact (h c (hmem hc).1).block (by simpa using (hmem hc).2)

/-! ### The end of a signature -/

/-- Lines with a text behind the last of them. -/
def withEnding (ending : Text) : List Text → List Text
  | [] => []
  | [l] => [l ++ ending]
  | l :: m :: r => l :: withEnding ending (m :: r)

/-- The ending of some lines goes to the last of them, and the lines before stay. -/
theorem withEnding_append {ls ms : List Text} (h : ms ≠ []) (ending : Text) :
    withEnding ending (ls ++ ms) = ls ++ withEnding ending ms := by
  obtain ⟨m, r, rfl⟩ := List.exists_cons_of_ne_nil h
  induction ls with
  | nil => rfl
  | cons l ls ih =>
      rw [List.cons_append, List.cons_append, ← ih]
      cases ls <;> rfl

/-- Lines with an ending are lines. -/
theorem withEnding_ne_nil {ls : List Text} (h : ls ≠ []) (ending : Text) :
    withEnding ending ls ≠ [] := by
  obtain ⟨l, r, rfl⟩ := List.exists_cons_of_ne_nil h
  cases r <;> simp [withEnding]

/-- **Writing a signature** is writing its lines, with the ending behind the last of them. -/
theorem signature_eq_foldl (w : Writer) (lines : List Text) (level : Int) (ending : Text) :
    w.signature lines level ending
      = (withEnding ending lines).foldl (fun w t => w.signatureLine t level) w := by
  have hfrom : ∀ (ls : List Text) (k n : Nat) (w : Writer), k + ls.length = n →
      (ls.zipIdx k).foldl (fun w l =>
        w.signatureLine (if l.2 + 1 == n then l.1 ++ ending else l.1) level) w
        = (withEnding ending ls).foldl (fun w t => w.signatureLine t level) w := by
    intro ls
    induction ls with
    | nil => exact fun _ _ _ _ => rfl
    | cons l r ih =>
        intro k n w hn
        rw [List.zipIdx_cons, List.foldl_cons, ih (k + 1) n _ (by simp at hn; omega)]
        cases r with
        | nil =>
            obtain rfl : k + 1 = n := by simpa using hn
            simp [withEnding]
        | cons m r =>
            have hlast : (k + 1 == n) = false := by
              simp only [List.length_cons] at hn
              simp only [beq_eq_false_iff_ne]
              omega
            simp [withEnding, hlast]
  exact hfrom lines 0 lines.length w (by simp)

/-! ### The code of a signature -/

/-- The lines of a text with others behind them. -/
theorem join_newline_append {ls ms : List Text} (h : ms ≠ []) :
    Text.join "\n" (ls ++ ms) = ls.flatMap (· ++ ['\n']) ++ Text.join "\n" ms := by
  induction ls with
  | nil => rfl
  | cons l ls ih =>
      rw [List.cons_append, join_cons_of_ne (by simp [h]), ih]
      simp

/-- A comma is code. -/
theorem codeOnly_comma (u : Text) : codeOnly (',' :: u) = ',' :: codeOnly u :=
  codeOnly_append (t := [',']) (by decide) u

/-- So is an opening parenthesis. -/
theorem codeOnly_opening (u : Text) : codeOnly ('(' :: u) = '(' :: codeOnly u :=
  codeOnly_append (t := ['(']) (by decide) u

/-- So is a closing one. -/
theorem codeOnly_parenthesis (u : Text) : codeOnly (')' :: u) = ')' :: codeOnly u :=
  codeOnly_append (t := [')']) (by decide) u

section

variable {types : TypeMap} {p : Parameter} {i : Nat} (htext : isSealed (parameterText types p i))
  (hcomments : ∀ c ∈ p.comments, c.IsWhole)

include htext hcomments

/-- The block comments of a parameter leave its text. -/
theorem codeOnly_withBlocks (u : Text) :
    codeOnly (p.withBlocks types i p.blocksBefore.reverse ++ u)
      = codeOnly (parameterText types p i) ++ codeOnly u := by
  obtain ⟨-, hbefore, -, hafter⟩ := Parameter.rows_whole hcomments
  rw [Parameter.withBlocks, List.append_assoc, List.append_assoc,
    codeOnly_blocksBefore fun t ht => hbefore t (List.mem_reverse.mp ht), codeOnly_append htext,
    codeOnly_blocksAfter hafter]

/-- The comma behind a parameter is code, whatever comments end its line. -/
theorem codeOnly_parameterLines_init {rest : List Text} (hrest : rest ≠ []) :
    codeOnly (Text.join "\n" (parameterLines types p i false ++ rest))
      = codeOnly (parameterText types p i) ++ ',' :: codeOnly (Text.join "\n" rest) := by
  obtain ⟨hbefore, -, hafter, -⟩ := Parameter.rows_whole hcomments
  have hlines : parameterLines types p i false ++ rest = p.linesBefore.map ('\t' :: ·) ++
      p.mainLine types i false p.blocksBefore.reverse :: rest := by
    rw [parameterLines_eq, List.append_assoc]
    rfl
  have hline : ∀ u, codeOnly (p.lineEnd false ++ '\n' :: u) = ',' :: codeOnly u := by
    intro u
    by_cases hnil : p.linesAfter.isEmpty
    · have hend : p.lineEnd false ++ '\n' :: u = ',' :: '\n' :: u := by
        simp [Parameter.lineEnd, hnil]
      rw [hend, codeOnly_comma, codeOnly_cons_of_isBlank rfl]
    · have hjoin := isLineComment_join hafter (by simpa using hnil)
      have hend : p.lineEnd false ++ '\n' :: u
          = ',' :: ' ' :: (Text.join " " p.linesAfter ++ '\n' :: u) := by
        simp [Parameter.lineEnd, hnil]
      rw [hend, codeOnly_comma, codeOnly_cons_of_isBlank rfl, hjoin.codeOnly]
  rw [hlines, join_newline_append (by simp), codeOnly_linesBefore hbefore,
    join_cons_of_ne hrest, Parameter.mainLine, List.cons_append, codeOnly_cons_of_isBlank rfl,
    List.append_assoc, codeOnly_withBlocks htext hcomments]
  exact congrArg (codeOnly (parameterText types p i) ++ ·) (hline (Text.join "\n" rest))

/-- The parenthesis behind the last parameter is code, whatever comments end its line, and so is the
ending behind it. -/
theorem codeOnly_parameterLines_last (ending : Text) :
    codeOnly (Text.join "\n" (withEnding ending (parameterLines types p i true)))
      = codeOnly (parameterText types p i) ++ ')' :: codeOnly ending := by
  obtain ⟨hbefore, -, hafter, -⟩ := Parameter.rows_whole hcomments
  have hline : codeOnly (Text.join "\n" (withEnding ending
        (p.mainLine types i true p.blocksBefore.reverse :: p.closingLine true)))
      = codeOnly (parameterText types p i) ++ ')' :: codeOnly ending := by
    by_cases hnil : p.linesAfter.isEmpty
    · have hrow : Text.join "\n" (withEnding ending
            (p.mainLine types i true p.blocksBefore.reverse :: p.closingLine true))
          = '\t' :: (p.withBlocks types i p.blocksBefore.reverse ++ ')' :: ending) := by
        simp [Parameter.mainLine, Parameter.lineEnd, Parameter.closingLine, hnil, withEnding,
          Text.join]
      rw [hrow, codeOnly_cons_of_isBlank rfl, codeOnly_withBlocks htext hcomments,
        codeOnly_parenthesis]
    · have hjoin := isLineComment_join hafter (by simpa using hnil)
      have hrow : Text.join "\n" (withEnding ending
            (p.mainLine types i true p.blocksBefore.reverse :: p.closingLine true))
          = '\t' :: (p.withBlocks types i p.blocksBefore.reverse ++
              ' ' :: (Text.join " " p.linesAfter ++ '\n' :: ')' :: ending)) := by
        simp [Parameter.mainLine, Parameter.lineEnd, Parameter.closingLine, hnil, withEnding,
          Text.join]
      rw [hrow, codeOnly_cons_of_isBlank rfl, codeOnly_withBlocks htext hcomments,
        codeOnly_cons_of_isBlank rfl, hjoin.codeOnly, codeOnly_parenthesis]
  rw [parameterLines_eq, withEnding_append (by simp),
    join_newline_append (withEnding_ne_nil (by simp) _), codeOnly_linesBefore hbefore, hline]

end

/-! ### The parameters of a signature -/

section

variable (types : TypeMap)

/-- The texts of parameters, the first of which has the number `k`. -/
def parameterTextsFrom (k : Nat) (ps : List Parameter) : List Text :=
  ps.mapIdx fun i p => parameterText types p (k + i)

/-- The lines of parameters, the first of which has the number `k`. -/
def parameterLinesFrom (k : Nat) (ps : List Parameter) : List Text :=
  (ps.mapIdx fun i p => parameterLines types p (k + i) (i + 1 == ps.length)).flatten

@[simp]
theorem parameterTextsFrom_cons (k : Nat) (p : Parameter) (ps : List Parameter) :
    parameterTextsFrom types k (p :: ps)
      = parameterText types p k :: parameterTextsFrom types (k + 1) ps := by
  have hshift : (fun i p => parameterText types p (k + (i + 1)))
      = fun i p => parameterText types p (k + 1 + i) := by
    funext i p
    rw [Nat.add_right_comm]
    rfl
  rw [parameterTextsFrom, List.mapIdx_cons, hshift]
  rfl

theorem parameterLinesFrom_cons (k : Nat) (p q : Parameter) (ps : List Parameter) :
    parameterLinesFrom types k (p :: q :: ps)
      = parameterLines types p k false ++ parameterLinesFrom types (k + 1) (q :: ps) := by
  have hshift : (fun i p' => parameterLines types p' (k + (i + 1))
        (i + 1 + 1 == (p :: q :: ps).length))
      = fun i p' => parameterLines types p' (k + 1 + i) (i + 1 == (q :: ps).length) := by
    funext i p'
    have hlast : (i + 1 + 1 == (p :: q :: ps).length) = (i + 1 == (q :: ps).length) := by
      simp
    rw [hlast, Nat.add_right_comm]
    rfl
  rw [parameterLinesFrom, List.mapIdx_cons, List.flatten_cons, hshift]
  rfl

/-- Parameters are written on one line at least. -/
theorem parameterLinesFrom_ne_nil (k : Nat) (p : Parameter) (ps : List Parameter) :
    parameterLinesFrom types k (p :: ps) ≠ [] := by
  rw [parameterLinesFrom, List.mapIdx_cons, List.flatten_cons, parameterLines_eq]
  simp

variable {types}

/-- Texts with commas between them have their codes with commas between them. -/
theorem codeOnly_join_comma {ts : List Text} (h : ∀ t ∈ ts, isSealed t = true) (u : Text) :
    codeOnly (Text.join ", " ts ++ u) = Text.join "," (ts.map codeOnly) ++ codeOnly u := by
  induction ts with
  | nil => rfl
  | cons t ts ih =>
      obtain ⟨ht, hts⟩ := List.forall_mem_cons.mp h
      cases ts with
      | nil => simpa [Text.join] using codeOnly_append ht u
      | cons s ts =>
          have hrow : Text.join ", " (t :: s :: ts) ++ u
              = t ++ ',' :: ' ' :: (Text.join ", " (s :: ts) ++ u) := by
            simp [join_cons_cons]
          rw [hrow, codeOnly_append ht, codeOnly_comma, codeOnly_cons_of_isBlank rfl, ih hts]
          simp [join_cons_cons]

/-- The lines of the parameters of a signature have the code of the parameters on one line. -/
theorem codeOnly_parameterLinesFrom {ps : List Parameter} (hne : ps ≠ []) (k : Nat)
    (htexts : ∀ t ∈ parameterTextsFrom types k ps, isSealed t = true)
    (hcomments : ∀ p ∈ ps, ∀ c ∈ p.comments, c.IsWhole) (ending : Text) :
    codeOnly (Text.join "\n" (withEnding ending (parameterLinesFrom types k ps)))
      = codeOnly (Text.join ", " (parameterTextsFrom types k ps) ++ ')' :: ending) := by
  rw [codeOnly_join_comma htexts, codeOnly_parenthesis]
  induction ps generalizing k with
  | nil => exact absurd rfl hne
  | cons p ps ih =>
      rw [parameterTextsFrom_cons] at htexts ⊢
      obtain ⟨htext, htexts⟩ := List.forall_mem_cons.mp htexts
      obtain ⟨hp, hps⟩ := List.forall_mem_cons.mp hcomments
      cases ps with
      | nil =>
          have hlines : parameterLinesFrom types k [p] = parameterLines types p k true := by
            simp [parameterLinesFrom]
          rw [hlines, codeOnly_parameterLines_last htext hp]
          simp [parameterTextsFrom, Text.join]
      | cons q ps =>
          have hrest := parameterLinesFrom_ne_nil types (k + 1) q ps
          rw [parameterLinesFrom_cons, withEnding_append hrest,
            codeOnly_parameterLines_init htext hp (withEnding_ne_nil hrest _),
            ih (by simp) _ htexts hps, List.map_cons, parameterTextsFrom_cons, List.map_cons,
            join_cons_cons]
          simp

end

/-- **A signature with comments has the code of the one without them.** If the head and the texts of
the parameters are sealed and the comments are whole, the lines that are written contain, but for
comments and blanks, the signature on one line with the ending behind it. -/
theorem codeOnly_signatureLines (types : TypeMap) (head ending : Text) (ps : List Parameter)
    (hhead : isSealed head = true)
    (htexts : ∀ t ∈ ps.mapIdx fun i p => parameterText types p i, isSealed t = true)
    (hcomments : ∀ p ∈ ps, ∀ c ∈ p.comments, c.IsWhole) :
    (∀ (w : Writer) (level : Int), w.signature (signatureLines types head ps) level ending
      = (withEnding ending (signatureLines types head ps)).foldl
          (fun w t => w.signatureLine t level) w) ∧
    codeOnly (Text.join "\n" (withEnding ending (signatureLines types head ps)))
      = codeOnly (head ++ "(" ++
          Text.join ", " (ps.mapIdx fun i p => parameterText types p i) ++ ")" ++ ending) := by
  refine ⟨fun w level => signature_eq_foldl w _ level ending, ?_⟩
  rw [signatureLines]
  split
  · rename_i hany
    have hne : ps ≠ [] := by
      rintro rfl
      cases hany
    have htexts' : (ps.mapIdx fun i p => parameterText types p i)
        = parameterTextsFrom types 0 ps := by
      simp [parameterTextsFrom]
    have hlines' : (ps.mapIdx fun i p => parameterLines types p i (i + 1 == ps.length)).flatten
        = parameterLinesFrom types 0 ps := by
      simp [parameterLinesFrom]
    have hrows : parameterLinesFrom types 0 ps ≠ [] := by
      obtain ⟨p, r, rfl⟩ := List.exists_cons_of_ne_nil hne
      exact parameterLinesFrom_ne_nil types 0 p r
    rw [htexts'] at htexts
    rw [htexts', hlines', ← List.singleton_append, withEnding_append hrows,
      join_newline_append (withEnding_ne_nil hrows ending), List.flatMap_singleton]
    have hplain : head ++ "(" ++ Text.join ", " (parameterTextsFrom types 0 ps) ++ ")" ++ ending
        = head ++ '(' :: (Text.join ", " (parameterTextsFrom types 0 ps) ++ ')' :: ending) := by
      simp
    have hfirst : ∀ u, head ++ "(" ++ ['\n'] ++ u = head ++ '(' :: '\n' :: u := by
      simp
    rw [hplain, hfirst, codeOnly_append hhead, codeOnly_append hhead, codeOnly_opening,
      codeOnly_opening, codeOnly_cons_of_isBlank rfl,
      codeOnly_parameterLinesFrom hne 0 htexts hcomments]
  · simp [withEnding, Text.join]

/-- Comments of all four rows, with marks of code in them, and a last parameter whose line ends with
a comment. -/
theorem codeOnly_signatureLines_noted :
    let count : Parameter := {
      baseType := "int", name := "count",
      comments := [⟨"// (first,", .before⟩, ⟨"/* // */", .before⟩, ⟨"/* ) */", .after⟩,
        ⟨"// of \"all", .after⟩] }
    let path : Parameter := {
      baseType := "CString", name := "path", default? := some "\"//\"",
      comments := [⟨"// last", .after⟩] }
    (isSealed "void f" = true ∧
      (∀ t ∈ [count, path].mapIdx fun i p => parameterText [] p i, isSealed t = true) ∧
      ∀ p ∈ [count, path], ∀ c ∈ p.comments, c.IsWhole) ∧
    (∀ (w : Writer) (level : Int), w.signature (signatureLines [] "void f" [count, path]) level ";"
      = (withEnding ";" (signatureLines [] "void f" [count, path])).foldl
          (fun w t => w.signatureLine t level) w) ∧
    codeOnly (Text.join "\n" (withEnding ";" (signatureLines [] "void f" [count, path])))
      = codeOnly ("void f" ++ "(" ++
          Text.join ", " ([count, path].mapIdx fun i p => parameterText [] p i) ++ ")" ++ ";") := by
  intro count path
  have htexts : ∀ t ∈ [count, path].mapIdx fun i p => parameterText [] p i, isSealed t = true := by
    decide +kernel
  have hcount : ∀ c ∈ count.comments, c.IsWhole := by
    refine List.forall_mem_cons.mpr ⟨?_, List.forall_mem_cons.mpr ⟨?_,
      List.forall_mem_cons.mpr ⟨?_, List.forall_mem_singleton.mpr ?_⟩⟩⟩
    · exact isWhole_of_isLineComment ⟨" (first,", rfl, by decide⟩ _
    · exact isWhole_of_isBlockComment ⟨" // ", rfl, by decide⟩ _
    · exact isWhole_of_isBlockComment ⟨" ) ", rfl, by decide⟩ _
    · exact isWhole_of_isLineComment ⟨" of \"all", rfl, by decide⟩ _
  have hpath : ∀ c ∈ path.comments, c.IsWhole :=
    List.forall_mem_singleton.mpr (isWhole_of_isLineComment ⟨" last", rfl, by decide⟩ _)
  have hcomments : ∀ p ∈ [count, path], ∀ c ∈ p.comments, c.IsWhole :=
    List.forall_mem_cons.mpr ⟨hcount, List.forall_mem_singleton.mpr hpath⟩
  exact ⟨⟨by decide, htexts, hcomments⟩,
    codeOnly_signatureLines [] "void f" ";" [count, path] (by decide) htexts hcomments⟩

end Sharpen
