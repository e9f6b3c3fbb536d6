import Sharpen.Decl.Comment
import Sharpen.Decl.Constant
import Sharpen.Decl.Initializer
import Sharpen.Decl.ParameterList
import Sharpen.Proofs.Text.LineBreaks
import Sharpen.Proofs.TypeKey.Tokens

/-!
# Tidy Declarations

The texts of a declaration are of two kinds. Some are written as lines of their own or as parts of
one and must be on one line; others are cut into lines when they are written, or are kept as they
are, and must only be without carriage returns. A declaration is tidy if its texts are as they
should be. This module says what is tidy, and that parameters, initializers and constants are
whenever they are read from a text without carriage returns.

Every text of a declaration is asked to be on a single line, or at least to have no carriage return,
depending on how it is written. What parameters and initializers may have is given by the list they
are read from. The default value of a parameter is the one text of these that may have a newline in
it.

## Main definitions

* `Parameter.Tidy`, `Method.Tidy`, `Member.Tidy`, `Constant.Tidy`, `TypeDecl.Tidy`.
* `Initializer.Tidy` — a member initializer is on one line.
* `BlockTail.Within` — the tail of a text that a class covers.
* `BlockParts.Within` — the parts of a block that a class covers.

## Main results

* `tidy_parseParameters`, `tidy_parseInitializers`, `tidy_ofLine?` — what is read is tidy.
* `covers_collectComments`, `covers_bannerComments` — comments are taken as lines.
-/

namespace Sharpen

open LineClass

/-! ### What is tidy -/

/-- A parameter has its type on one line. Names, default values and comments are kept as they were
read. -/
structure Parameter.Tidy (p : Parameter) : Prop where
  baseType : oneLine.Covers p.baseType
  name : noReturn.Covers p.name
  value : ∀ v ∈ p.default?, noReturn.Covers v
  comments : ∀ c ∈ p.comments, noReturn.Covers c.text

/-- A member initializer is on one line. -/
structure Initializer.Tidy (i : Initializer) : Prop where
  name : oneLine.Covers i.name
  value : oneLine.Covers i.value

/-- A data member has its comments and markers on single lines. -/
structure Member.Tidy (m : Member) : Prop where
  type : noReturn.Covers m.type
  name : noReturn.Covers m.name
  arraySize : noReturn.Covers m.arraySize
  initializer : ∀ v ∈ m.initializer, noReturn.Covers v
  trailingComment : noReturn.Covers m.trailingComment
  comments : ∀ l ∈ m.comments, oneLine.Covers l
  regionStart : oneLine.Covers m.regionStart
  regionEnd : oneLine.Covers m.regionEnd

/-- A method has everything on single lines but its body and parts of its parameters. -/
structure Method.Tidy (m : Method) : Prop where
  name : oneLine.Covers m.name
  returnType : oneLine.Covers m.returnType
  parameters : ∀ p ∈ m.parameters, p.Tidy
  initializers : ∀ i ∈ m.initializers, i.Tidy
  inlineBody : noReturn.Covers m.inlineBody
  targetFile : oneLine.Covers m.targetFile
  headerComments : ∀ l ∈ m.headerComments, oneLine.Covers l
  sourceComments : ∀ l ∈ m.sourceComments, oneLine.Covers l
  headerRegionStart : oneLine.Covers m.headerRegionStart
  headerRegionEnd : oneLine.Covers m.headerRegionEnd
  sourceRegionStart : oneLine.Covers m.sourceRegionStart
  sourceRegionEnd : oneLine.Covers m.sourceRegionEnd

/-- A constant is on one line. -/
structure Constant.Tidy (c : Constant) : Prop where
  name : oneLine.Covers c.name
  type : oneLine.Covers c.type
  literal : oneLine.Covers c.literal
  trailingComment : oneLine.Covers c.trailingComment
  comments : ∀ l ∈ c.comments, oneLine.Covers l

/-- A type is tidy if everything it has is. -/
structure TypeDecl.Tidy (d : TypeDecl) : Prop where
  name : oneLine.Covers d.name
  file : oneLine.Covers d.file
  bases : ∀ b ∈ d.bases, oneLine.Covers b
  comments : ∀ l ∈ d.comments, oneLine.Covers l
  members : ∀ m ∈ d.members, m.Tidy
  methods : ∀ m ∈ d.methods, m.Tidy
  headerConstants : ∀ c ∈ d.headerConstants, c.Tidy
  sourceConstants : ∀ c ∈ d.sourceConstants, c.Tidy

/-! ### Types -/

section

variable {S : LineClass} {t : Text}

/-- A token that is put with the others is covered as they are. -/
theorem covers_flushToken {token : Text} {tokens : List Text} (htoken : S.Covers token)
    (h : ∀ k ∈ tokens, S.Covers k) : ∀ k ∈ flushToken token tokens, S.Covers k := by
  rw [flushToken]
  split
  · exact h
  · exact List.forall_mem_cons.mpr ⟨htoken, h⟩

/-- One character is put in front of tokens. -/
theorem covers_put {c : Char} {p : Text × List Text} (hc : S.Covers [c]) (hp : S.Covers p.1)
    (htokens : ∀ k ∈ p.2, S.Covers k) (s : TokenState) :
    S.Covers (s.put c p).1 ∧ ∀ k ∈ (s.put c p).2, S.Covers k := by
  have hcons : S.Covers (c :: p.1) := covers_cons.mpr ⟨(covers_cons.mp hc).1, hp⟩
  have hflush := covers_flushToken hp htokens
  rw [TokenState.put]
  split
  · exact ⟨covers_nil, List.forall_mem_cons.mpr ⟨hcons, htokens⟩⟩
  split
  · split
    · exact ⟨hc, hflush⟩
    · exact ⟨hcons, htokens⟩
  split
  · exact ⟨hcons, htokens⟩
  split
  · exact ⟨covers_nil, hflush⟩
  split
  · exact ⟨covers_nil, List.forall_mem_cons.mpr ⟨hc, hflush⟩⟩
  · exact ⟨hcons, htokens⟩

/-- The tokens of a type, and the one being read, have characters of the type, wherever the cutting
stands. -/
theorem covers_typeTokensFrom (s : TokenState) (h : S.Covers t) :
    S.Covers (typeTokensFrom s t).1 ∧ ∀ k ∈ (typeTokensFrom s t).2, S.Covers k := by
  induction t generalizing s with
  | nil => simp [typeTokensFrom]
  | cons c r ih =>
      obtain ⟨hc, hr⟩ := covers_cons.mp h
      obtain ⟨htoken, htokens⟩ := ih (s.next c) hr
      rw [typeTokensFrom_cons]
      exact covers_put (covers_cons.mpr ⟨hc, covers_nil⟩) htoken htokens s

/-- The tokens of a type have characters of the type. -/
theorem covers_typeTokens (h : S.Covers t) : ∀ k ∈ typeTokens t, S.Covers k :=
  covers_flushToken (covers_typeTokensFrom {} h).1 (covers_typeTokensFrom {} h).2

/-- Tokens that are written behind each other have their characters and spaces. -/
theorem covers_joinTokensAfter {tokens : List Text} (h : ∀ k ∈ tokens, S.Covers k) (prev : Text) :
    S.Covers (joinTokensAfter prev tokens) := by
  induction tokens generalizing prev with
  | nil => exact covers_nil
  | cons k r ih =>
      obtain ⟨hk, hr⟩ := List.forall_mem_cons.mp h
      have hgap : S.Covers (if isMarker k || isMarker prev then [] else [' ']) := by
        split
        · exact covers_nil
        · exact covers_cons.mpr ⟨has_space, covers_nil⟩
      exact covers_append.mpr ⟨covers_append.mpr ⟨hgap, hk⟩, ih hr k⟩

/-- A type with settled spacing. -/
theorem covers_normalizeType (h : S.Covers t) : S.Covers (normalizeType t) := by
  have htokens := covers_typeTokens h
  rw [normalizeType]
  cases htoken : typeTokens t with
  | nil => exact covers_nil
  | cons k r =>
      rw [htoken] at htokens
      obtain ⟨hk, hr⟩ := List.forall_mem_cons.mp htokens
      exact covers_trim (covers_append.mpr ⟨hk, covers_joinTokensAfter hr k⟩)

/-! ### Parameters -/

/-- What a separator claims and what it leaves have characters of the text behind it. -/
theorem covers_claimTrailing (h : S.Covers t) :
    S.Covers (claimTrailing t).claimed ∧ S.Covers (claimTrailing t).rest := by
  have htake : ∀ (n : Nat) (b : Bool),
      S.Covers (Claim.take t n b).claimed ∧ S.Covers (Claim.take t n b).rest := fun n _ =>
    ⟨h.subset (List.take_subset n t), h.subset (List.drop_subset n t)⟩
  simp only [claimTrailing]
  repeat' split
  all_goals exact htake _ _

/-- The blocks of a tail. -/
theorem BlockTail.covers_blocks {b : BlockTail} (htext : S.Covers b.text)
    (hmore : ∀ p ∈ b.more, S.Covers p.text) : ∀ p ∈ b.blocks, S.Covers p.text := by
  rw [BlockTail.blocks]
  split
  · exact hmore
  · exact List.forall_mem_cons.mpr ⟨htext, hmore⟩

/-- The tail of a text that a class covers. -/
def BlockTail.Within (S : LineClass) (b : BlockTail) : Prop :=
  S.Covers b.text ∧ ∀ p ∈ b.more, S.Covers p.text

/-- A character in front of blocks that are covered leaves them covered. -/
theorem BlockTail.Within.push {b : BlockTail} (h : b.Within S) {c : Char} (hc : S.has c) :
    (b.push c).Within S :=
  ⟨covers_cons.mpr ⟨hc, h.1⟩, h.2⟩

/-- Cutting into blocks moves no character into a text that was not there. The mark that closes a
comment is two characters, and both go to the block. -/
theorem within_blocksFrom (s : BlockState) (h : S.Covers t) : (blocksFrom s t).Within S := by
  fun_induction blocksFrom s t with
  | case1 => exact ⟨covers_nil, by simp⟩
  | case7 =>
      rename_i ih
      obtain ⟨hc, hr⟩ := covers_cons.mp h
      obtain ⟨hd, hr'⟩ := covers_cons.mp hr
      exact ((ih hr').push hd).push hc
  | case17 =>
      rename_i claim ih
      obtain ⟨hclaimed, hrest⟩ := covers_claimTrailing (covers_cons.mp h).2
      exact ⟨hclaimed, BlockTail.covers_blocks (ih hrest).1 (ih hrest).2⟩
  | _ =>
      rename_i ih
      obtain ⟨hc, hr⟩ := covers_cons.mp h
      exact (ih hr).push hc

/-- The blocks of a parameter list have characters of the list. -/
theorem covers_parameterBlocks (h : S.Covers t) : ∀ b ∈ parameterBlocks t, S.Covers b.text :=
  BlockTail.covers_blocks (within_blocksFrom {} h).1 (within_blocksFrom {} h).2

/-- The parts of a block that a class covers. -/
structure BlockParts.Within (S : LineClass) (p : BlockParts) : Prop where
  code : S.Covers p.code
  openComment : S.Covers p.openComment
  before : ∀ c ∈ p.before, S.Covers c.text
  after : ∀ c ∈ p.after, S.Covers c.text

namespace BlockParts.Within

variable {p : BlockParts} {c : Char}

/-- One more character of the code leaves the pieces covered. -/
theorem pushCode (h : p.Within S) (hc : S.has c) : (p.pushCode c).Within S :=
  { h with code := covers_cons.mpr ⟨hc, h.code⟩ }

/-- So does one more character of a comment. -/
theorem pushComment (h : p.Within S) (hc : S.has c) : (p.pushComment c).Within S :=
  { h with openComment := covers_cons.mpr ⟨hc, h.openComment⟩ }

/-- So does the end of a comment. -/
theorem comment (h : p.Within S) (side : CommentSide) : (p.comment side).Within S := by
  have hclosed : S.Covers p.openComment.trim := covers_trim h.openComment
  cases side with
  | before =>
      exact ⟨h.code, covers_nil, List.forall_mem_cons.mpr ⟨hclosed, h.before⟩, h.after⟩
  | after =>
      exact ⟨h.code, covers_nil, h.before, List.forall_mem_cons.mpr ⟨hclosed, h.after⟩⟩

end BlockParts.Within

/-- Nor does taking the comments out of a block. -/
theorem within_separateFrom (z : Zone) (seen : Bool) (h : S.Covers t) :
    (separateFrom z seen t).Within S := by
  fun_induction separateFrom z seen t with
  | case1 => exact ⟨covers_nil, covers_nil, by simp, by simp⟩
  | case2 seen c r _ _ ih =>
      obtain ⟨hc, hr⟩ := covers_cons.mp h
      exact { ih hr with openComment := covers_cons.mpr ⟨hc, covers_nil⟩ }
  | case3 seen c r _ ih => exact (ih (covers_cons.mp h).2).pushComment (covers_cons.mp h).1
  | case4 seen r _ ih =>
      have hr := (covers_cons.mp (covers_cons.mp h).2).2
      have hmark : S.Covers ("*/" : Text) := covers_literal (by decide)
      exact { ih hr with openComment := hmark }
  | case5 seen c r _ ih => exact (ih (covers_cons.mp h).2).pushComment (covers_cons.mp h).1
  | case6 q seen c r ih => exact (ih (covers_cons.mp h).2).pushCode (covers_cons.mp h).1
  | case7 q seen c r _ ih => exact (ih (covers_cons.mp h).2).pushCode (covers_cons.mp h).1
  | case8 seen c r _ ih =>
      exact ((ih (covers_cons.mp h).2).pushComment (covers_cons.mp h).1).comment _
  | case9 seen c r _ _ _ ih =>
      exact ((ih (covers_cons.mp h).2).pushComment (covers_cons.mp h).1).comment _
  | case10 seen c r _ _ _ ih => exact (ih (covers_cons.mp h).2).pushCode (covers_cons.mp h).1

/-- The parts around the equals sign of a default have characters of the parameter. -/
theorem covers_splitDefault (h : S.Covers t) :
    S.Covers (splitDefault t).1 ∧ ∀ v ∈ (splitDefault t).2, S.Covers v := by
  simp only [splitDefault]
  split
  · refine ⟨covers_trim ((covers_dropEndWhile h _).subset (List.take_subset _ _)), ?_⟩
    rintro v ⟨⟩
    exact covers_trim ((covers_dropEndWhile h _).subset (List.drop_subset _ _))
  · exact ⟨covers_dropEndWhile h _, by simp⟩

/-- A name is a token of the declaration. -/
theorem covers_name_splitTypeAndName (h : S.Covers t) : S.Covers (splitTypeAndName t).name := by
  have htokens := covers_typeTokens (covers_trim h)
  simp only [splitTypeAndName]
  split
  · exact covers_nil
  · split
    · exact covers_nil
    · split
      · exact covers_nil
      · exact covers_nil
      · rename_i i _
        split
        · exact covers_nil
        · rw [List.getD_eq_getElem?_getD]
          cases hk : (typeTokens t.trim)[i + 1]? with
          | none => exact covers_nil
          | some k => exact htokens k (List.mem_of_getElem? hk)

/-- The type of a parameter has single spaces only. -/
theorem covers_baseType (type : Text) (isArray : Bool) : S.Covers (baseType type isArray) := by
  refine covers_append.mpr ⟨covers_trim (covers_squeeze _), ?_⟩
  split
  · exact covers_literal (by decide)
  · exact covers_nil

end

/-- **Parameters are tidy** if their text has no carriage returns. -/
theorem tidy_parseParameters {t : Text} (h : noReturn.Covers t) :
    ∀ p ∈ parseParameters t, p.Tidy := by
  have hall : ∀ p ∈ (parameterBlocks t).map ParameterBlock.parameter, p.Tidy := by
    intro p hp
    obtain ⟨b, hb, rfl⟩ := List.mem_map.mp hp
    have hparts := within_separateFrom .code false (covers_parameterBlocks h b hb)
    obtain ⟨hdecl, hvalue⟩ := covers_splitDefault hparts.code
    refine ⟨covers_baseType _ _, covers_name_splitTypeAndName hdecl, hvalue, fun c hc => ?_⟩
    rcases List.mem_append.mp hc with hc | hc
    · exact hparts.before c hc
    · exact hparts.after c hc
  simp only [parseParameters]
  split
  · simp
  · exact hall

/-! ### Initializers -/

/-- **Member initializers are tidy**, whatever they are read from. -/
theorem tidy_parseInitializers (t : Text) : ∀ i ∈ parseInitializers t, i.Tidy := by
  intro i hi
  obtain ⟨part, -, hread⟩ := List.mem_filterMap.mp hi
  simp only [initializer?] at hread
  split at hread
  · cases hread
  · split at hread
    · obtain rfl := Option.some.inj hread
      exact ⟨covers_takeWhile (by decide) (by decide) _, covers_normalizeBlanks _⟩
    · cases hread

/-! ### Comments -/

section

variable {lines : List Text} (h : ∀ l ∈ lines, oneLine.Covers l)

include h

/-- Comment lines that are taken are on one line each. -/
theorem covers_takeLines (claimed : List Nat) (first last : Nat) :
    ∀ l ∈ (takeLines lines claimed first last).lines, oneLine.Covers l :=
  covers_stripCommonIndent fun l hl => h l (List.mem_of_mem_take (List.mem_of_mem_drop hl))

/-- So are those that are collected above a line. -/
theorem covers_collectComments (index : Nat) (claimed : List Nat) :
    ∀ l ∈ (collectComments lines index claimed).lines, oneLine.Covers l :=
  covers_takeLines h _ _ _

/-- So are those of the banner. -/
theorem covers_bannerComments : ∀ l ∈ (bannerComments lines).lines, oneLine.Covers l :=
  covers_takeLines h _ _ _

end

/-! ### Constants -/

section

variable {S : LineClass} {t : Text}

/-- A line and the comment cut off it have characters of the line. -/
theorem covers_splitTrailingComment (h : S.Covers t) :
    S.Covers (splitTrailingComment t).1 ∧ S.Covers (splitTrailingComment t).2 := by
  rw [splitTrailingComment]
  split
  · exact ⟨covers_trimEnd (h.subset (List.take_subset _ _)),
      covers_trim (h.subset (List.drop_subset _ _))⟩
  · exact ⟨covers_trimEnd h, covers_nil⟩

/-- What stands behind a text is covered with the whole. -/
theorem covers_afterText? {w r : Text} (h : S.Covers t) (hafter : afterText? w t = some r) :
    S.Covers r := by
  rw [afterText?] at hafter
  split at hafter
  · obtain rfl := Option.some.inj hafter
    exact h.subset (List.drop_subset _ _)
  · cases hafter

/-- The name that a directive defines is on one line, and what stands behind it is covered with the
line. -/
theorem covers_defineHead? {name r : Text} (h : S.Covers t)
    (hhead : defineHead? t = some (name, r)) : oneLine.Covers name ∧ S.Covers r := by
  simp only [defineHead?, Option.bind_eq_bind, Option.bind_eq_some_iff] at hhead
  obtain ⟨r₁, h₁, r₂, h₂, hif⟩ := hhead
  have hr₁ := covers_afterText? (covers_trimStart h) h₁
  have hr₂ := covers_afterText? (covers_trimStart hr₁) h₂
  split at hif
  · obtain ⟨rfl, rfl⟩ := Prod.mk.inj (Option.some.inj hif)
    exact ⟨covers_takeWhile (by decide) (by decide) _,
      (covers_trimStart hr₂).subset (List.drop_subset _ _)⟩
  · cases hif

/-- A directive is read up to the end of its line. -/
theorem covers_splitDefine? {d : DefineParts} (h : noReturn.Covers t)
    (hsplit : splitDefine? t = some d) :
    oneLine.Covers d.name ∧ oneLine.Covers d.value ∧ oneLine.Covers d.comment := by
  simp only [splitDefine?, Option.bind_eq_bind, Option.bind_eq_some_iff] at hsplit
  obtain ⟨⟨name, r⟩, hhead, hif⟩ := hsplit
  obtain ⟨hname, hr⟩ := covers_defineHead? h hhead
  have hline : oneLine.Covers (r.takeWhile (· != '\n')) := by
    refine (hr.subset (List.takeWhile_prefix _).subset).oneLine_of_noReturn fun hmem => ?_
    simpa using List.all_eq_true.mp (List.all_takeWhile (p := (· != '\n')) (l := r)) _ hmem
  obtain ⟨hvalue, hcomment⟩ := covers_splitTrailingComment hline
  split at hif
  · cases hif
  · dsimp only at hif
    split at hif
    · cases hif
    · obtain rfl := Option.some.inj hif
      exact ⟨hname, covers_trim hvalue, hcomment⟩

/-- The type of a constant is on one line, whatever the value. -/
theorem covers_constantType (value : Text) : S.Covers (constantType value) := by
  simp only [constantType]
  split_ifs <;> exact covers_literal (by decide)

/-- A literal in a macro has characters of the macro. -/
theorem covers_macroLiteral? {name literal : Text} {q : Char} (h : S.Covers t)
    (hread : macroLiteral? name q t = some literal) : S.Covers literal := by
  simp only [macroLiteral?, Option.bind_eq_bind, Option.bind_eq_some_iff] at hread
  obtain ⟨r, hafter, hif⟩ := hread
  split at hif
  · obtain rfl := Option.some.inj hif
    exact covers_trim ((covers_afterText? h hafter).subset (List.dropLast_subset _))
  · cases hif

/-- The value of a constant as it is written has characters of the value as it was read. -/
theorem covers_constantLiteral (h : S.Covers t) : S.Covers (constantLiteral t) := by
  have htrim := covers_trim h
  simp only [constantLiteral]
  split
  · rename_i literal hread
    rcases Option.or_eq_some_iff.mp hread with hchar | ⟨-, hstring⟩
    · exact covers_macroLiteral? htrim hchar
    · rcases Option.or_eq_some_iff.mp hstring with hlong | ⟨-, hshort⟩
      · exact covers_macroLiteral? htrim hlong
      · exact covers_macroLiteral? htrim hshort
  · split_ifs
    · exact covers_literal (by decide)
    · exact covers_literal (by decide)
    · exact htrim

end

/-- **Constants are tidy** if their directives have no carriage returns. -/
theorem tidy_ofLine? {line stem : Text} {fromHeader : Bool} {comments : List Text} {position : Nat}
    (hline : noReturn.Covers line) (hcomments : ∀ l ∈ comments, oneLine.Covers l) :
    ∀ c ∈ (Constant.ofLine? line stem fromHeader comments position).toList, c.Tidy := by
  intro c hc
  obtain ⟨d, hsplit, rfl⟩ := Option.map_eq_some_iff.mp (Option.mem_toList.mp hc)
  obtain ⟨hname, hvalue, hcomment⟩ := covers_splitDefine? hline hsplit
  exact ⟨hname, covers_constantType _, covers_constantLiteral hvalue, hcomment, hcomments⟩

end Sharpen
