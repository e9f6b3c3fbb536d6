import Sharpen.Decl.Constant
import Sharpen.Proofs.Code.Reading
import Sharpen.Proofs.Decl.PlainParameter
import Sharpen.Proofs.Decl.RoundTrip

/-!
# Comments Behind a Constant

A directive `#define NAME VALUE` may end with a comment. One up to the end of the line is taken off
the value, whatever it holds, and the constant is the same without it. One between marks is not: it
stays in the value, up to a `//` in it, so that the constant gets another value every time.

A directive is taken apart at the name that it defines, and its value is cut at the first `//`
outside of literals. The comment is put behind a value that has no comment of its own, with blanks
between. Then a comment up to the end of the line is exactly what is cut off, and one between marks
is left in the value with its marks.

## Main definitions

* `DefineLine` — the lines that are meant; `EndComment` — what is put behind them.
* `Piece.IsPlain` — whether a piece is code or a literal with its closing quote.
* `IsPlainCode` — code without comments, with its literals closed, by its reading.
* `EndComment.IsLine` — whether a comment goes up to the end of its line.
* `Constant.Agrees` — two constants of one name that are written alike.

## Main results

* `lineCommentStart?_append` — code without comments and with its literals closed is passed over.
* `splitDefine?_line` — a directive is taken apart at the name.
* `constant_endComment` — the constant with and without a comment.
-/

namespace Sharpen

/-! ### Code without comments -/

/-- Whether a piece is code or a literal with its closing quote. -/
def Piece.IsPlain : Piece → Prop
  | .code _ => True
  | .literal quote _ stop => stop = some quote
  | _ => False

/-- **Code without comments, with its literals closed**, by its reading. -/
def IsPlainCode (t : Text) : Prop :=
  ∃ ps, Reads t ps ∧ ∀ p ∈ ps, p.IsPlain

/-- A literal is passed over up to its quote. -/
theorem lineCommentStart?_stopped {quote : Char} {escaped : Bool} {content : Text}
    (h : contentEnd? quote escaped content = some false) (hquote : quote ≠ '\\') (u : Text) :
    lineCommentStart? (some quote) escaped (content ++ quote :: u)
      = (lineCommentStart? none false u).map (· + (content.length + 1)) := by
  fun_induction contentEnd? quote escaped content with
  | case1 escaped =>
      obtain rfl : escaped = false := Option.some.inj h
      simp [lineCommentStart?, hquote]
  | case2 x r ih =>
      simp only [List.cons_append, lineCommentStart?, if_true, ih h, Option.map_map,
        List.length_cons]
      rfl
  | case3 => cases h
  | case4 x r hplain ih =>
      have hne : (x == quote) = false := by
        rw [Bool.eq_false_iff]
        exact fun hx => hplain (by simp [hx])
      have hstep : lineCommentStart? (some quote) false (x :: (r ++ quote :: u))
          = (lineCommentStart? (some quote) (x == '\\') (r ++ quote :: u)).map (· + 1) := by
        rw [lineCommentStart?]
        cases hx : x == '\\' <;> simp [hne]
      rw [List.cons_append, hstep, ih h, Option.map_map]
      rfl

/-- Behind a quote, the start of a comment is looked for in a literal. -/
theorem lineCommentStart?_quote {c : Char} (h : isQuote c = true) (u : Text) :
    lineCommentStart? none false (c :: u) = (lineCommentStart? (some c) false u).map (· + 1) := by
  rw [lineCommentStart?, if_pos h]

/-- Behind any other character that opens no comment, it is looked for in the rest. -/
theorem lineCommentStart?_code {c : Char} {u : Text} (hquote : isQuote c = false)
    (hopens : (c == '/' && u.head? == some '/') = false) :
    lineCommentStart? none false (c :: u) = (lineCommentStart? none false u).map (· + 1) := by
  rw [lineCommentStart?, hquote, hopens]
  rfl

/-- **Plain code is passed over**, unless a slash follows it. -/
theorem lineCommentStart?_append {t : Text} (h : IsPlainCode t) {u : Text}
    (hu : u.head? ≠ some '/') : lineCommentStart? none false (t ++ u)
      = (lineCommentStart? none false u).map (· + t.length) := by
  obtain ⟨ps, hreads, hplain⟩ := h
  induction ps generalizing t with
  | nil =>
      obtain rfl := hreads
      exact Option.map_id'.symm
  | cons p ps ih =>
      obtain ⟨rest, rfl, hp, hps⟩ := hreads
      have hrest := ih hps fun q hq => hplain q (List.mem_cons_of_mem _ hq)
      have hkind := hplain p List.mem_cons_self
      cases p with
      | code c =>
          obtain ⟨hquote, hopens⟩ := hp
          have hmark : (c == '/' && (rest ++ u).head? == some '/') = false := by
            cases rest with
            | nil => simp [hu]
            | cons d r =>
                rw [opensComment, Bool.and_or_distrib_left, Bool.or_eq_false_iff] at hopens
                exact hopens.1
          rw [Piece.text, List.append_assoc, List.singleton_append,
            lineCommentStart?_code hquote hmark, hrest, Option.map_map]
          refine congrArg (Option.map · _) (funext fun n => ?_)
          simp only [Function.comp_apply, List.length_append, List.length_singleton]
          omega
      | lineComment => exact absurd hkind id
      | blockComment => exact absurd hkind id
      | literal quote content stop =>
          obtain rfl : stop = some quote := hkind
          obtain ⟨hquote, hend, -⟩ := hp
          have hne : quote ≠ '\\' := by
            rintro rfl
            exact absurd hquote (by decide)
          have hline : (Piece.literal quote content (some quote)).text ++ rest ++ u
              = quote :: (content ++ quote :: (rest ++ u)) := by
            simp [Piece.text]
          rw [hline, lineCommentStart?_quote hquote, lineCommentStart?_stopped hend hne, hrest,
            Option.map_map, Option.map_map]
          refine congrArg (Option.map · _) (funext fun n => ?_)
          simp only [Function.comp_apply, Piece.text, List.length_append, List.length_cons,
            Option.toList_some, List.length_nil]
          omega

/-! ### A directive -/

/-- **A line `#define NAME VALUE`.** What stands behind the name, which starts with a blank as a
rule, neither prolongs the name nor opens a parameter list. -/
structure DefineLine where
  margin : Text
  gap : Text
  nameGap : Text
  name : Text
  body : Text
  margin_isBlank : margin.isBlank = true
  gap_isBlank : gap.isBlank = true
  nameGap_isBlank : nameGap.isBlank = true
  nameGap_ne_nil : nameGap ≠ []
  name_ne_nil : name ≠ []
  isWord_name : ∀ c ∈ name, isWord c = true
  head_body : ∀ c ∈ body.head?, isWord c = false ∧ c ≠ '('
  body_isBlank : body.isBlank = false
  body_isPlain : IsPlainCode body
  body_isLine : '\n' ∉ body

/-- The text of the line. -/
def DefineLine.line (d : DefineLine) : Text :=
  d.margin ++ '#' :: (d.gap ++ ("define" ++ (d.nameGap ++ (d.name ++ d.body))))

/-- Behind a text is what is appended to it. -/
theorem afterText?_append (w t : Text) : afterText? w (w ++ t) = some t := by
  rw [afterText?, if_pos (List.isPrefixOf_iff_prefix.mpr (List.prefix_append w t)),
    List.drop_left]

namespace DefineLine

variable (d : DefineLine)

/-- The text of a directive is not empty. -/
theorem body_ne_nil : d.body ≠ [] := by
  intro hnil
  have hblank := d.body_isBlank
  rw [hnil] at hblank
  cases hblank

/-- Whatever is put behind the line, the name and what follows it are found. -/
theorem defineHead?_line (u : Text) : defineHead? (d.line ++ u) = some (d.name, d.body ++ u) := by
  have hhash : Text.trimStart (d.line ++ u)
      = '#' :: (d.gap ++ ("define" ++ (d.nameGap ++ (d.name ++ (d.body ++ u))))) := by
    rw [line, List.append_assoc, Text.trimStart_blank_append d.margin_isBlank, List.cons_append,
      Text.trimStart, List.dropWhile_cons_of_neg (by decide)]
    simp only [List.append_assoc]
  have hdefine : Text.trimStart (d.gap ++ ("define" ++ (d.nameGap ++ (d.name ++ (d.body ++ u)))))
      = "define" ++ (d.nameGap ++ (d.name ++ (d.body ++ u))) := by
    rw [Text.trimStart_blank_append d.gap_isBlank]
    exact Text.trimStart_append (t := "define") (by decide) (by decide) _
  obtain ⟨c, r, hname⟩ := List.exists_cons_of_ne_nil d.name_ne_nil
  have hword : Text.trimStart (d.nameGap ++ (d.name ++ (d.body ++ u))) =
      d.name ++ (d.body ++ u) := by
    have hblank := isBlank_eq_false_of_isWord (d.isWord_name c (hname ▸ List.mem_cons_self))
    rw [Text.trimStart_blank_append d.nameGap_isBlank, hname, List.cons_append, Text.trimStart,
      List.dropWhile_cons_of_neg (by simp [hblank])]
  obtain ⟨e, b, hbody⟩ := List.exists_cons_of_ne_nil d.body_ne_nil
  have hend := (d.head_body e (by rw [hbody]; rfl)).1
  have hname' : (d.name ++ (d.body ++ u)).takeWhile isWord = d.name := by
    rw [hbody, List.cons_append]
    exact takeWhile_append_cons (List.all_eq_true.mpr d.isWord_name) hend _
  obtain ⟨g, gs, hgap⟩ := List.exists_cons_of_ne_nil d.nameGap_ne_nil
  have hg : isBlank g = true := by
    have hall := d.nameGap_isBlank
    rw [hgap, Text.isBlank, List.all_cons, Bool.and_eq_true] at hall
    exact hall.1
  have hgap' : (d.nameGap ++ (d.name ++ (d.body ++ u))).head?.any isBlank = true := by
    rw [hgap]
    exact hg
  have hne : d.name.isEmpty = false := by simp [d.name_ne_nil]
  have hmark : afterText? "#" (Text.trimStart (d.line ++ u))
      = some (d.gap ++ ("define" ++ (d.nameGap ++ (d.name ++ (d.body ++ u))))) := by
    rw [hhash]
    exact afterText?_append ['#'] _
  have hkeyword : afterText? "define"
      (Text.trimStart (d.gap ++ ("define" ++ (d.nameGap ++ (d.name ++ (d.body ++ u))))))
      = some (d.nameGap ++ (d.name ++ (d.body ++ u))) := by
    rw [hdefine]
    exact afterText?_append _ _
  have hdrop : (d.name ++ (d.body ++ u)).drop d.name.length = d.body ++ u := List.drop_left
  simp only [defineHead?, hmark, hkeyword, bind, Option.bind, hword, hname', hgap', hne, hdrop]
  rfl

/-- A directive is taken apart at the end of its name. -/
theorem splitDefine?_line {u : Text} (hu : '\n' ∉ u) : splitDefine? (d.line ++ u) =
    (let parts := splitTrailingComment (d.body ++ u)
    if parts.1.isBlank then none else some ⟨d.name, parts.1.trim, parts.2⟩) := by
  have hline : ∀ c ∈ d.body ++ u, (c != '\n') = true := by
    intro c hc
    rw [bne_iff_ne]
    rintro rfl
    rcases List.mem_append.mp hc with hc | hc
    · exact d.body_isLine hc
    · exact hu hc
  have hrest : (d.body ++ u).takeWhile (· != '\n') = d.body ++ u :=
    List.takeWhile_eq_self_iff.mpr hline
  obtain ⟨e, b, hbody⟩ := List.exists_cons_of_ne_nil d.body_ne_nil
  have hparen : ((d.body ++ u).head? == some '(') = false := by
    have hne := (d.head_body e (by rw [hbody]; rfl)).2
    simp [hbody, hne]
  simp only [splitDefine?, defineHead?_line, bind, Option.bind, hrest, hparen, List.drop_length,
    List.length_nil]
  rfl

/-- The constant of a directive, by the code and the comment behind its name. -/
theorem ofLine?_line {u code comment : Text} (hu : '\n' ∉ u)
    (hsplit : splitTrailingComment (d.body ++ u) = (code, comment)) (hcode : code.isBlank = false)
    (originFile : Text) (fromHeader : Bool) (comments : List Text) (position : Nat) :
    Constant.ofLine? (d.line ++ u) originFile fromHeader comments position =
      some { name := d.name, value := code.trim, type := constantType code.trim,
             literal := constantLiteral code.trim, originFile := originFile,
             fromHeader := fromHeader, comments := comments, trailingComment := comment,
             position := position } := by
  rw [Constant.ofLine?, splitDefine?_line d hu, hsplit]
  simp only [hcode]
  rfl

end DefineLine

/-! ### A comment behind it -/

/-- A comment that ends a line. -/
inductive EndComment where
  /-- A comment up to the end of the line. -/
  | line (content : Text) (h : '\n' ∉ content)
  /-- A comment up to its closing mark. -/
  | block (content : Text) (h : '\n' ∉ content) (hfree : content.hasInfix "*/" = false)

namespace EndComment

/-- The text of a comment. -/
def text : EndComment → Text
  | line content _ => '/' :: '/' :: content
  | block content _ _ => '/' :: '*' :: (content ++ ['*', '/'])

/-- Whether a comment goes up to the end of its line. -/
def IsLine : EndComment → Prop
  | line _ _ => True
  | block _ _ _ => False

/-- A comment at the end of a line is on that line. -/
theorem newline_notMem_text (comment : EndComment) : '\n' ∉ comment.text := by
  cases comment with
  | line content h => simpa [text] using h
  | block content h _ => simpa [text] using h

end EndComment

/-- A comment between marks is code to the end, or up to a `//` in it. -/
theorem lineCommentStart?_block (u : Text) :
    lineCommentStart? none false ('/' :: '*' :: u)
      = (lineCommentStart? none false u).map (· + 2) := by
  rw [lineCommentStart?_code rfl rfl, lineCommentStart?_code rfl (by simp), Option.map_map]
  rfl

/-- Behind the mark of a comment, blanks are dropped from what follows it only. -/
theorem trimEnd_blockMark (t u : Text) :
    Text.trimEnd (t ++ '/' :: '*' :: u) = t ++ '/' :: '*' :: u.trimEnd := by
  have hmark : Text.trimEnd (t ++ ['/', '*']) = t ++ ['/', '*'] :=
    Text.trimEnd_append rfl (by simp) t
  have hline : ∀ r : Text, t ++ '/' :: '*' :: r = (t ++ ['/', '*']) ++ r := by simp
  rw [hline u, hline u.trimEnd]
  exact Text.dropEndWhile_append hmark u

/-- Code that ends with no blank still does without the blanks in front of it. -/
theorem trim_trimEnd (t : Text) : Text.trim t.trimEnd = Text.trimStart t.trimEnd := by
  refine List.rdropWhile_eq_self_iff.mpr fun hne => ?_
  have hsuffix : Text.trimStart t.trimEnd <:+ t.trimEnd := List.dropWhile_suffix _
  rw [hsuffix.getLast hne]
  exact List.rdropWhile_eq_self_iff.mp (Text.trimEnd_trimEnd t) _

section

variable {t : Text} (ht : IsPlainCode t)

include ht

/-- Plain code alone has no comment. -/
theorem splitTrailingComment_plain : splitTrailingComment t = (t.trimEnd, []) := by
  have hnone := lineCommentStart?_append ht (u := []) (by simp)
  rw [List.append_nil] at hnone
  rw [splitTrailingComment, hnone]
  rfl

variable {b : Char} (hb : isBlank b = true)

include hb

/-- A comment behind a blank starts where it does on its own. -/
theorem lineCommentStart?_blank (u : Text) : lineCommentStart? none false (t ++ b :: u)
    = (lineCommentStart? none false u).map (· + (t.length + 1)) := by
  have hne : ∀ c, isBlank c = false → b ≠ c := by
    rintro c hc rfl
    rw [hb] at hc
    cases hc
  have hquote : isQuote b = false := by simp [isQuote, hne '"' rfl, hne '\'' rfl]
  rw [lineCommentStart?_append ht (by simp [hne '/' rfl]),
    lineCommentStart?_code hquote (by simp [hne '/' rfl]), Option.map_map]
  refine congrArg (Option.map · _) (funext fun n => ?_)
  simp only [Function.comp_apply]
  omega

/-- A comment up to the end of the line is taken off. -/
theorem splitTrailingComment_line (content : Text) :
    splitTrailingComment (t ++ b :: '/' :: '/' :: content)
      = (t.trimEnd, Text.trim ('/' :: '/' :: content)) := by
  have hstart : lineCommentStart? none false (t ++ b :: '/' :: '/' :: content)
      = some (t.length + 1) := by
    rw [lineCommentStart?_blank ht hb]
    simp [lineCommentStart?, isQuote]
  have hline : t ++ b :: '/' :: '/' :: content = (t ++ [b]) ++ '/' :: '/' :: content := by simp
  rw [splitTrailingComment, hstart, hline]
  dsimp only
  rw [List.take_left' (by simp), List.drop_left' (by simp),
    Text.trimEnd_append_blank (by simpa [Text.isBlank] using hb)]

/-- A comment between marks is not: the code goes on with it. -/
theorem splitTrailingComment_block (u : Text) : ∃ left : Text,
    (splitTrailingComment (t ++ b :: '/' :: '*' :: u)).1 = t ++ b :: '/' :: '*' :: left := by
  have hkeep : ∀ left : Text, Text.trimEnd (t ++ b :: '/' :: '*' :: left)
      = t ++ b :: '/' :: '*' :: Text.trimEnd left := by
    intro left
    have hline : ∀ r : Text, t ++ b :: '/' :: '*' :: r = (t ++ [b]) ++ '/' :: '*' :: r := by simp
    rw [hline, trimEnd_blockMark, hline]
  rw [splitTrailingComment, lineCommentStart?_blank ht hb, lineCommentStart?_block]
  cases lineCommentStart? none false u with
  | none => exact ⟨Text.trimEnd u, hkeep u⟩
  | some i =>
      have htake : (t ++ b :: '/' :: '*' :: u).take (i + 2 + (t.length + 1))
          = t ++ b :: '/' :: '*' :: u.take i := by
        have hsum : i + 2 + (t.length + 1) = t.length + (i + 3) := by omega
        rw [hsum, List.take_append, List.take_of_length_le (by omega)]
        simp
      exact ⟨Text.trimEnd (u.take i), (congrArg Text.trimEnd htake).trans (hkeep _)⟩

end

/-! ### The constant -/

/-- Two constants of one name that are written alike. -/
def Constant.Agrees (k k' : Constant) : Prop :=
  k'.name = k.name ∧ k'.value = k.value ∧ k'.type = k.type ∧ k'.literal = k.literal

/-- **What a comment does to a constant.** One up to the end of the line becomes its comment; one
between marks prolongs its value. -/
def EndComment.Changes (k k' : Constant) : EndComment → Prop
  | .line content _ => k' = { k with trailingComment := Text.trim ('/' :: '/' :: content) }
  | .block _ _ _ => ∃ gap left : Text, gap ≠ [] ∧ gap.isBlank = true ∧
      k'.value = k.value ++ (gap ++ '/' :: '*' :: left)

/-- The value with a comment between marks behind it. -/
theorem exists_trim_block {t : Text} (hsolid : t.isBlank = false) {b : Char}
    (hb : isBlank b = true) (left : Text) : ∃ gap : Text, gap ≠ [] ∧ gap.isBlank = true ∧
      Text.trim (t ++ b :: '/' :: '*' :: left)
        = Text.trim t.trimEnd ++ (gap ++ '/' :: '*' :: left.trimEnd) := by
  have hparts : t.trimEnd ++ t.rtakeWhile isBlank = t := List.rdropWhile_append_rtakeWhile
  have hend : Text.isBlank (t.rtakeWhile isBlank) = true :=
    List.all_eq_true.mpr fun _ hc => List.mem_rtakeWhile_imp hc
  have hline : t ++ b :: '/' :: '*' :: left
      = t.trimEnd ++ ((t.rtakeWhile isBlank ++ [b]) ++ '/' :: '*' :: left) := by
    conv_lhs => rw [← hparts]
    simp
  refine ⟨t.rtakeWhile isBlank ++ [b], by simp, ?_, ?_⟩
  · rw [Text.isBlank, List.all_append]
    exact Bool.and_eq_true_iff.mpr ⟨hend, by simpa using hb⟩
  · rw [hline, Text.trim,
      Text.trimStart_append_of_isBlank_eq_false ((Text.isBlank_trimEnd t).trans hsolid),
      ← List.append_assoc, trimEnd_blockMark, trim_trimEnd, List.append_assoc]

/-- **A comment behind a constant.** The directive defines a constant with the comment and without
it. The two agree if the comment goes up to the end of the line, and only then: a comment between
marks stays in the value. -/
theorem constant_endComment (d : DefineLine) {b : Char} (hb : isBlank b = true) (hline : b ≠ '\n')
    (comment : EndComment) (originFile : Text) (fromHeader : Bool) (comments : List Text)
    (position : Nat) : ∃ k k',
      Constant.ofLine? d.line originFile fromHeader comments position = some k ∧
      Constant.ofLine? (d.line ++ b :: comment.text) originFile fromHeader comments position
        = some k' ∧
      comment.Changes k k' ∧ (k.Agrees k' ↔ comment.IsLine) := by
  have hsolid := d.body_isBlank
  have hplain : splitTrailingComment (d.body ++ []) = (d.body.trimEnd, []) := by
    rw [List.append_nil]
    exact splitTrailingComment_plain d.body_isPlain
  have hbare := d.ofLine?_line (u := []) List.not_mem_nil hplain
    ((Text.isBlank_trimEnd d.body).trans hsolid) originFile fromHeader comments position
  rw [List.append_nil] at hbare
  have hnewline : '\n' ∉ b :: comment.text :=
    List.mem_cons.not.mpr (not_or.mpr ⟨Ne.symm hline, comment.newline_notMem_text⟩)
  cases comment with
  | line content h =>
      have hsplit := splitTrailingComment_line d.body_isPlain hb content
      have hnoted := d.ofLine?_line hnewline hsplit ((Text.isBlank_trimEnd d.body).trans hsolid)
        originFile fromHeader comments position
      exact ⟨_, _, hbare, hnoted, rfl, iff_of_true ⟨rfl, rfl, rfl, rfl⟩ trivial⟩
  | block content h hfree =>
      obtain ⟨left, hleft⟩ := splitTrailingComment_block d.body_isPlain hb (content ++ ['*', '/'])
      have hcode : Text.isBlank (d.body ++ b :: '/' :: '*' :: left) = false := by
        rw [Text.isBlank, List.all_append, Bool.and_eq_false_iff]
        exact Or.inl hsolid
      have hnoted := d.ofLine?_line hnewline (Prod.ext hleft rfl) hcode
        originFile fromHeader comments position
      obtain ⟨gap, hgap, hblank, hvalue⟩ := exists_trim_block hsolid hb left
      refine ⟨_, _, hbare, hnoted, ⟨gap, _, hgap, hblank, hvalue⟩, iff_of_false ?_ id⟩
      rintro ⟨-, hsame, -, -⟩
      simp [hvalue] at hsame

/-- The body of a directive with one literal. -/
theorem isPlainCode_literal (content : Text) (h : contentEnd? '"' false content = some false) :
    IsPlainCode (' ' :: '"' :: (content ++ ['"'])) := by
  refine ⟨[.code ' ', .literal '"' content (some '"')], ?_, ?_⟩
  · exact ⟨'"' :: (content ++ ['"']), rfl, ⟨rfl, rfl⟩, [], by simp [Piece.text],
      ⟨rfl, h, Or.inl rfl⟩, rfl⟩
  · rintro p (_ | ⟨_, _ | ⟨_, ⟨⟩⟩⟩)
    · trivial
    · rfl

/-- The line `#define TITLE "a//b"`. -/
def titleLine : DefineLine where
  margin := []
  gap := []
  nameGap := [' ']
  name := "TITLE"
  body := " \"a//b\""
  margin_isBlank := rfl
  gap_isBlank := rfl
  nameGap_isBlank := rfl
  nameGap_ne_nil := by decide
  name_ne_nil := by decide
  isWord_name := List.all_eq_true.mp rfl
  head_body c hc := by
    obtain rfl : ' ' = c := Option.some.inj hc
    exact ⟨rfl, by decide⟩
  body_isBlank := by decide
  body_isPlain := isPlainCode_literal "a//b" rfl
  body_isLine := by decide

/-- The comments `// /* shown */` and `/* shown */` behind it. -/
theorem constant_endComment_title :
    (∃ k k', Constant.ofLine? "#define TITLE \"a//b\"" [] true [] 0 = some k ∧
      Constant.ofLine? "#define TITLE \"a//b\" // /* shown */" [] true [] 0 = some k' ∧
      k.Agrees k') ∧
    ∃ k k', Constant.ofLine? "#define TITLE \"a//b\"" [] true [] 0 = some k ∧
      Constant.ofLine? "#define TITLE \"a//b\" /* shown */" [] true [] 0 = some k' ∧
      ¬ k.Agrees k' := by
  constructor
  · obtain ⟨k, k', hk, hk', -, hagrees⟩ := constant_endComment titleLine (b := ' ') rfl (by decide)
      (.line " /* shown */" (by decide)) [] true [] 0
    exact ⟨k, k', hk, hk', hagrees.mpr trivial⟩
  · obtain ⟨k, k', hk, hk', -, hagrees⟩ := constant_endComment titleLine (b := ' ') rfl (by decide)
      (.block " shown " (by decide) (by decide)) [] true [] 0
    exact ⟨k, k', hk, hk', fun h => hagrees.mp h⟩

/-- A comment between marks gives the constant another value and type. -/
theorem not_forall_constant_agrees :
    ¬ ∀ (d : DefineLine) (b : Char) (comment : EndComment), isBlank b = true → b ≠ '\n' → ∃ k k',
      Constant.ofLine? d.line [] true [] 0 = some k ∧
      Constant.ofLine? (d.line ++ b :: comment.text) [] true [] 0 = some k' ∧ k.Agrees k' := by
  intro hall
  obtain ⟨k, k', hk, hk', -, -, htype, -⟩ :=
    hall titleLine ' ' (.block " shown " (by decide) (by decide)) rfl (by decide)
  have hstring : (Constant.ofLine? titleLine.line [] true [] 0).map (·.type) = some "string" := by
    decide
  have hint : (Constant.ofLine? (titleLine.line ++ ' ' ::
      EndComment.text (.block " shown " (by decide) (by decide))) [] true [] 0).map (·.type)
      = some "int" := by
    decide
  rw [hk] at hstring
  rw [hk'] at hint
  have hstring' : k.type = "string" := Option.some.inj hstring
  have hint' : k'.type = "int" := Option.some.inj hint
  rw [hstring', hint'] at htype
  exact absurd htype (by decide)

end Sharpen
