import Mathlib.Tactic.Tauto
import Sharpen.Proofs.CSharp.Lines
import Sharpen.Proofs.Plan.Tidy

/-!
# Lines of Signatures

Parameters of a method go into its signature as they were read. They are all that is written without
being on one line before: the name of a parameter, its converted default value and its comments. So
what is written for a method has no line break inside a line just if its parameters have none, and
the same holds of classes and of interfaces with their extensions.

A signature goes to the writer line by line, with the comments of a parameter on lines of their own
where there are any. The statements are equivalences, like those about single lines: the lines are
covered just if every parameter fits. They are proved first for one parameter, then for signatures,
methods, parts of classes and interfaces, in the order in which these are written.

## Main definitions

* `Parameter.Fits` — a class has what is written for a parameter as it was read.
* `Method.SignatureFits` — a class has what is written for the parameters of a method as it was
  read.

## Main results

* `covers_signatureLines` — a signature is covered just if its parameters are.
* `within_method`, `within_classSection`, `within_interface` — so is what is written for a type.
* `covers_parameterLines` — the lines of a parameter are covered just if all that was read of it is.
-/

namespace Sharpen

open LineClass

variable {S : LineClass}

/-! ### Parameters -/

/-- A class has what is written for a parameter as it was read: its name, its default value and its
comments. -/
structure Parameter.Fits (S : LineClass) (p : Parameter) : Prop where
  name : S.Covers p.name
  value : ∀ v ∈ p.default?, S.Covers (convertValue v)
  comments : ∀ c ∈ p.comments, S.Covers c.text

/-- A parameter fits into a signature when its name, its default value and its comments do. -/
theorem fits_iff {p : Parameter} :
    p.Fits S ↔ (S.Covers p.name ∧ ∀ v ∈ p.default?, S.Covers (convertValue v)) ∧
      ∀ c ∈ p.comments, S.Covers c.text :=
  ⟨fun h => ⟨⟨h.name, h.value⟩, h.comments⟩, fun h => ⟨h.1.1, h.1.2, h.2⟩⟩

section

variable {types : TypeMap} (htypes : types.Tidy)

include htypes

/-- A parameter without its comments. -/
theorem covers_parameterText {p : Parameter} (hp : p.Tidy) (i : Nat) :
    S.Covers (parameterText types p i) ↔
      S.Covers p.name ∧ ∀ v ∈ p.default?, S.Covers (convertValue v) := by
  have hmodifier : S.Covers (if p.isPointer && !p.isConst then ("out " : Text)
      else if p.isReference && !p.isConst then "ref " else []) := by
    split_ifs <;> exact covers_literal (by decide)
  have htype : S.Covers (types.mapType p.baseType) := covers_mapType htypes hp.baseType.of_oneLine
  have hname : S.Covers (if p.name.isEmpty then "arg" ++ Text.ofNat i else p.name)
      ↔ S.Covers p.name := by
    have harg : S.Covers ("arg" ++ Text.ofNat i) :=
      covers_append.mpr ⟨covers_literal (by decide), covers_ofNat i⟩
    cases p.name with
    | nil => exact iff_of_true harg covers_nil
    | cons c r => exact Iff.rfl
  have hempty : S.Covers (convertValue []) := covers_convertValue covers_nil
  simp (disch := decide) only [parameterText, covers_append, covers_literal, hmodifier, htype,
    hname, true_and, and_true]
  refine and_congr_right fun _ => ?_
  rcases p.default? with _ | (_ | ⟨c, r⟩)
  · simp
  · simp [hempty]
  · simp (disch := decide) only [covers_append, covers_literal, true_and, Option.mem_some_iff,
      forall_eq']

end

/-- The comments of a parameter by where they are written: before or after it, and on its line or
on one of their own. -/
theorem forall_mem_comments {P : ParamComment → Prop} (p : Parameter) :
    (∀ c ∈ p.comments, P c) ↔
      (∀ c ∈ p.commentsBefore.filter ParamComment.isLine, P c) ∧
      (∀ c ∈ p.commentsBefore.filter fun c => !c.isLine, P c) ∧
      (∀ c ∈ p.commentsAfter.filter ParamComment.isLine, P c) ∧
      ∀ c ∈ p.commentsAfter.filter fun c => !c.isLine, P c := by
  have hmem : ∀ {q q' : ParamComment → Bool} {c : ParamComment},
      c ∈ (p.comments.filter q).filter q' ↔ c ∈ p.comments ∧ q c = true ∧ q' c = true := by
    simp [and_assoc, and_comm]
  simp only [Parameter.commentsBefore, Parameter.commentsAfter, hmem]
  constructor
  · intro h
    exact ⟨fun c hc => h c hc.1, fun c hc => h c hc.1, fun c hc => h c hc.1, fun c hc => h c hc.1⟩
  · rintro ⟨hbeforeLine, hbefore, hafterLine, hafter⟩ c hc
    cases hside : c.side with
    | before =>
        cases hline : c.isLine with
        | true => exact hbeforeLine c ⟨hc, by simp [hside], hline⟩
        | false => exact hbefore c ⟨hc, by simp [hside], by simp [hline]⟩
    | after =>
        cases hline : c.isLine with
        | true => exact hafterLine c ⟨hc, by simp [hside], hline⟩
        | false => exact hafter c ⟨hc, by simp [hside], by simp [hline]⟩

/-- A tab is no line break. -/
theorem has_tab : S.has '\t' :=
  S.has_of_ne (by decide) (by decide)

/-- Block comments in front of a parameter stand on its line. -/
theorem covers_foldl_comments {cs : List ParamComment} {t : Text} :
    S.Covers (cs.foldl (fun (text : Text) c => c.text ++ " " ++ text) t) ↔
      S.Covers t ∧ ∀ c ∈ cs, S.Covers c.text := by
  induction cs generalizing t with
  | nil => simp
  | cons c r ih =>
      simp (disch := decide) only [List.foldl_cons, ih, covers_append, covers_literal,
        List.forall_mem_cons, and_true]
      tauto

/-- Block comments behind a parameter do as well. -/
theorem covers_blocksBehind {ts : List Text} :
    S.Covers (if ts.isEmpty then [] else ' ' :: Text.join " " ts) ↔ ∀ t ∈ ts, S.Covers t := by
  cases ts with
  | nil => simp
  | cons t r =>
      have hsep : S.Covers (" " : Text) := covers_literal (by decide)
      simp only [List.isEmpty_cons, Bool.false_eq_true, if_false, covers_cons, has_space, true_and,
        covers_join hsep]

/-- Line comments behind a parameter end its line. -/
theorem covers_linesBehind {t : Text} {ts : List Text} {isLast : Bool} :
    (∀ l ∈ (if ts.isEmpty then ['\t' :: (t ++ (if isLast then (")" : Text) else ","))]
      else if isLast then ['\t' :: (t ++ " " ++ Text.join " " ts), (")" : Text)]
      else ['\t' :: (t ++ (if isLast then (")" : Text) else ",") ++ " " ++ Text.join " " ts)]),
      S.Covers l) ↔ S.Covers t ∧ ∀ u ∈ ts, S.Covers u := by
  have hsep : S.Covers (" " : Text) := covers_literal (by decide)
  have hclosing : S.Covers (if isLast then (")" : Text) else ",") := by
    split <;> exact covers_literal (by decide)
  cases ts with
  | nil =>
      simp only [List.isEmpty_nil, if_true, List.forall_mem_singleton, covers_cons, has_tab,
        covers_append, hclosing]
      simp
  | cons u r =>
      cases isLast with
      | true =>
          simp (disch := decide) only [List.isEmpty_cons, Bool.false_eq_true, if_false, if_true,
            List.forall_mem_cons, covers_cons, has_tab, covers_append, covers_join hsep,
            covers_literal, true_and, and_true, List.not_mem_nil, false_implies, implies_true]
      | false =>
          simp (disch := decide) only [List.isEmpty_cons, Bool.false_eq_true, if_false,
            List.forall_mem_cons, covers_cons, has_tab, covers_append, covers_join hsep,
            covers_literal, true_and, and_true, List.not_mem_nil, false_implies, implies_true]

/-- What holds of all images just if something holds of all they are made from. -/
theorem forall_mem_mapIdx_iff {α β : Type} {f : Nat → α → β} {P : β → Prop} {Q : α → Prop}
    {as : List α} (h : ∀ a ∈ as, ∀ i, P (f i a) ↔ Q a) :
    (∀ b ∈ as.mapIdx f, P b) ↔ ∀ a ∈ as, Q a := by
  constructor
  · intro hall a ha
    obtain ⟨i, hi, rfl⟩ := List.getElem_of_mem ha
    exact (h _ ha i).mp (hall _ (List.mem_mapIdx.mpr ⟨i, hi, rfl⟩))
  · intro hall b hb
    obtain ⟨i, hi, rfl⟩ := List.mem_mapIdx.mp hb
    exact (h _ (List.getElem_mem hi) i).mpr (hall _ (List.getElem_mem hi))

section

variable {types : TypeMap} (htypes : types.Tidy)

include htypes

/-- **The lines of a parameter** are covered just if all that was read of it is. -/
theorem covers_parameterLines {p : Parameter} (hp : p.Tidy) (i : Nat) (isLast : Bool) :
    (∀ l ∈ parameterLines types p i isLast, S.Covers l) ↔ p.Fits S := by
  have habove : (∀ l ∈ (p.commentsBefore.filter ParamComment.isLine).map fun c => '\t' :: c.text,
      S.Covers l) ↔ ∀ c ∈ p.commentsBefore.filter ParamComment.isLine, S.Covers c.text := by
    simp only [List.forall_mem_map, covers_cons, has_tab, true_and]
  rw [fits_iff, ← covers_parameterText htypes hp i, forall_mem_comments]
  simp only [parameterLines, List.forall_mem_append]
  rw [habove, covers_linesBehind, covers_append, covers_blocksBehind, covers_foldl_comments]
  simp only [List.forall_mem_map]
  tauto

/-- **A signature** is covered just if its parameters are. -/
theorem covers_signatureLines {head : Text} (hhead : S.Covers head) {ps : List Parameter}
    (hps : ∀ p ∈ ps, p.Tidy) :
    (∀ l ∈ signatureLines types head ps, S.Covers l) ↔ ∀ p ∈ ps, p.Fits S := by
  rw [signatureLines]
  split
  · -- Every parameter has lines of its own.
    have hlines := forall_mem_mapIdx_iff (P := fun ls => ∀ l ∈ ls, S.Covers l)
      (f := fun i p => parameterLines types p i (i + 1 == ps.length))
      fun p hp i => covers_parameterLines htypes (hps p hp) i _
    simp (disch := decide) only [List.forall_mem_cons, covers_append, hhead, covers_literal,
      true_and, List.mem_flatten, ← hlines]
    constructor
    · intro h ls hls l hl
      exact h l ⟨ls, hls, hl⟩
    · rintro h l ⟨ls, hls, hl⟩
      exact h ls hls l hl
  · rename_i hcomments
    have hnone : ∀ p ∈ ps, p.comments = [] := by simpa using hcomments
    have htexts := forall_mem_mapIdx_iff (P := S.Covers) (f := fun i p => parameterText types p i)
      (Q := fun p => p.Fits S) fun p hp i => by
        rw [covers_parameterText htypes (hps p hp), fits_iff, hnone p hp]
        simp
    have hsep : S.Covers (", " : Text) := covers_literal (by decide)
    simp (disch := decide) only [List.forall_mem_singleton, covers_append, hhead, covers_literal,
      true_and, and_true, covers_join hsep, htexts]

end

/-! ### Methods -/

/-- A class has what is written for the parameters of a method as it was read. -/
def Method.SignatureFits (S : LineClass) (m : Method) : Prop :=
  ∀ p ∈ m.parameters, p.Fits S

/-- What holds of all entries of a list holds of them with their places. -/
theorem forall_mem_zipIdx_fst {α : Type} {P : α → Prop} {as : List α} :
    (∀ a ∈ as.zipIdx, P a.1) ↔ ∀ a ∈ as, P a := by
  rw [← List.forall_mem_map (f := Prod.fst), List.zipIdx_map_fst]

section

variable {w : Writer} {level : Int}

/-- A line of a signature adds its text. -/
theorem within_signatureLine {t : Text} :
    (w.signatureLine t level).Within S ↔ w.Within S ∧ S.Covers t := by
  unfold Writer.signatureLine
  split
  · rw [within_line, covers_cons, and_iff_right has_tab]
  · exact within_line

/-- The lines of a signature add their texts, and what ends it adds nothing. -/
theorem within_signature {lines : List Text} {ending : Text} (hending : S.Covers ending) :
    (w.signature lines level ending).Within S ↔ w.Within S ∧ ∀ l ∈ lines, S.Covers l := by
  rw [Writer.signature, within_foldl (C := fun l : Text × Nat => S.Covers l.1),
    forall_mem_zipIdx_fst]
  rintro ⟨t, i⟩ - w
  rw [within_signatureLine]
  dsimp only
  split
  · rw [covers_append, and_iff_left hending]
  · exact Iff.rfl

/-- The body of a method that has none is on one line each. -/
theorem covers_methodPlaceholder : ∀ t ∈ methodPlaceholder, oneLine.Covers t := by
  simp (disch := decide) only [methodPlaceholder, List.forall_mem_cons, covers_literal,
    List.not_mem_nil, false_implies, implies_true, and_self]

/-- What is between the braces: bodies are written as blocks, and initializers are on one line. -/
theorem within_bodyLines {m : Method} (hm : m.Tidy) {body? : Option Text} :
    (w.bodyLines m body? level).Within S ↔ w.Within S := by
  have hinitializers : ∀ t ∈ m.initializers.map fun i =>
      i.name ++ " = " ++ convertValue i.value ++ ";", oneLine.Covers t := by
    refine List.forall_mem_map.mpr fun i hi => ?_
    simp (disch := decide) only [covers_append, covers_literal, and_true,
      (hm.initializers i hi).name, covers_convertValue (hm.initializers i hi).value]
  have hopen : (w.lineAll (m.initializers.map fun i =>
      i.name ++ " = " ++ convertValue i.value ++ ";") level).Within S ↔ w.Within S :=
    within_lineAll_iff hinitializers
  simp only [Writer.bodyLines]
  cases body? with
  | some body =>
      dsimp only
      split
      · exact hopen
      · rw [within_block, hopen]
  | none =>
      dsimp only
      split
      · split
        · rw [within_line, hopen, and_iff_left (covers_literal (by decide))]
        · exact hopen
      · rw [within_lineAll_iff covers_methodPlaceholder, hopen]

/-- **Bodies ask for nothing.** -/
theorem within_body {m : Method} (hm : m.Tidy) {body? : Option Text} :
    (w.body m body? level).Within S ↔ w.Within S := by
  rw [Writer.body, within_closeBrace, within_bodyLines hm, within_openBrace]

variable {types : TypeMap} (htypes : types.Tidy)

include htypes

/-- The head of a tidy method is on one line. -/
theorem covers_methodHead {m : Method} (hm : m.Tidy) {owner : Text} (howner : S.Covers owner) :
    S.Covers (methodHead types m owner) := by
  have hmodifiers : S.Covers (Text.join " " ([m.visibility.keyword] ++ wordIf m.isStatic "static"
      ++ wordIf (m.isVirtual && !m.isStatic) "virtual")) :=
    covers_modifiers (covers_literal (by decide)) (covers_literal (by decide))
  have hreturn : S.Covers (types.mapType m.returnType) :=
    covers_mapType htypes hm.returnType.of_oneLine
  simp only [methodHead]
  split_ifs
  · exact covers_cons.mpr ⟨S.has_of_ne (by decide) (by decide), howner⟩
  · simp (disch := decide) only [covers_append, covers_literal, hmodifiers, howner, and_self]
  · simp (disch := decide) only [covers_append, covers_literal, hmodifiers, hreturn,
      hm.name.of_oneLine, and_self]

/-- Signature and body. A body on the line of the signature has no newline. -/
theorem within_definition {m : Method} (hm : m.Tidy) {owner : Text} (howner : S.Covers owner) :
    (w.definition types m owner level).Within S ↔ w.Within S ∧ m.SignatureFits S := by
  have hlines := covers_signatureLines htypes (covers_methodHead htypes hm howner) hm.parameters
  simp only [Writer.definition]
  split
  · rename_i hone
    simp only [Writer.isOneLiner, Bool.and_eq_true, beq_iff_eq, List.length_eq_one_iff,
      Bool.not_eq_true', List.contains_eq_mem, decide_eq_false_iff_not] at hone
    obtain ⟨⟨⟨⟨⟨line, hline⟩, -⟩, -⟩, hnewline⟩, -⟩ := hone
    have hinline : S.Covers (convertBody m.inlineBody.trim) :=
      covers_convertValue (hm.inlineBody.oneLine_of_noReturn hnewline).of_oneLine
    have hbraces : S.Covers (if (convertBody m.inlineBody.trim).isEmpty then ("\x7b \x7d" : Text)
        else "\x7b " ++ convertBody m.inlineBody.trim ++ " \x7d") := by
      split
      · exact covers_literal (by decide)
      · simp (disch := decide) only [covers_append, covers_literal, hinline, and_self]
    rw [hline, List.forall_mem_singleton] at hlines
    rw [within_line, hline, List.headD_cons, covers_append, covers_append, hlines,
      and_iff_left hbraces, and_iff_left (covers_literal (by decide))]
    exact Iff.rfl
  · rw [within_body hm, within_signature covers_nil, hlines]
    exact Iff.rfl

/-- **A method asks for its parameters** and for nothing else. -/
theorem within_method {m : Method} (hm : m.Tidy) {owner : Text} (howner : S.Covers owner) :
    (w.method types m owner level).Within S ↔ w.Within S ∧ m.SignatureFits S := by
  simp only [Writer.method, within_regionEnd, within_definition htypes hm howner,
    within_lineAll_iff hm.headerComments, within_lineAll_iff hm.sourceComments,
    within_regionStart, hm.sourceRegionStart.of_oneLine, hm.headerRegionStart.of_oneLine,
    hm.headerRegionEnd.of_oneLine, hm.sourceRegionEnd.of_oneLine, and_true]

end

/-! ### Classes -/

/-- A declaration with its bases is covered when they all are. -/
theorem covers_withBases {declaration : Text} {bases : List Text} (hd : S.Covers declaration)
    (hbases : ∀ b ∈ bases, S.Covers b) : S.Covers (withBases declaration bases) := by
  rw [withBases]
  split
  · exact hd
  · have hjoin : S.Covers (Text.join ", " bases) :=
      (covers_join (covers_literal (by decide))).mpr hbases
    simp (disch := decide) only [covers_append, covers_literal, hd, hjoin, and_self]

/-- The declaration of a tidy class is on one line. -/
theorem covers_classDeclaration {d : TypeDecl} (hd : d.Tidy) {isPartial : Bool} :
    S.Covers (classDeclaration d isPartial) := by
  refine covers_withBases ?_ (forall_covers_of_oneLine hd.bases)
  have hmodifiers : S.Covers (Text.join " " ([d.visibility.keyword]
      ++ wordIf (isStaticClass d) "static" ++ wordIf isPartial "partial")) :=
    covers_modifiers (covers_literal (by decide)) (covers_literal (by decide))
  simp (disch := decide) only [covers_append, covers_literal, hmodifiers, hd.name.of_oneLine,
    and_self]

/-- The constants of a tidy type, from the header and from the sources, are tidy. -/
theorem tidy_constants {d : TypeDecl} (hd : d.Tidy) : ∀ c ∈ d.constants, c.Tidy := by
  refine List.forall_mem_append.mpr ⟨hd.headerConstants, fun c hc => ?_⟩
  exact hd.sourceConstants c (List.mem_mergeSort.mp hc)

section

variable {w : Writer} {level : Int} {types : TypeMap} (htypes : types.Tidy)

include htypes

/-- The constants and members of a tidy type add nothing that could break a line. -/
theorem within_classData {d : TypeDecl} (hd : d.Tidy) :
    (w.classData types d level).Within S ↔ w.Within S := by
  simp only [Writer.classData]
  rw [within_foldl_iff fun m hm w => within_member htypes (hd.members m hm)]
  split
  · exact Iff.rfl
  · rw [within_blank, within_constants (tidy_constants hd) (by simp)]

/-- The methods of a class add what their signatures have. -/
theorem within_classMethods {methods : List Method} (hmethods : ∀ m ∈ methods, m.Tidy)
    {owner : Text} (howner : S.Covers owner) {afterData : Bool} :
    (w.classMethods types methods owner afterData level).Within S ↔
      w.Within S ∧ ∀ m ∈ methods, m.SignatureFits S := by
  rw [Writer.classMethods, within_foldl (C := fun m : Method × Nat => m.1.SignatureFits S),
    forall_mem_zipIdx_fst]
  rintro ⟨m, i⟩ hm w
  rw [within_method htypes (hmethods m (List.fst_mem_of_mem_zipIdx hm)) howner]
  split
  · rw [within_blank]
  · exact Iff.rfl

/-- **A part of a class asks for the parameters of its methods.** -/
theorem within_classSection {s : Section} (hs : s.Tidy) :
    (w.classSection types s level).Within S ↔ w.Within S ∧ ∀ m ∈ s.methods, m.SignatureFits S := by
  have hcomments : ∀ w : Writer,
      (if s.isMain then w.lineAll s.type.comments level else w).Within S ↔ w.Within S := by
    intro w
    split
    · exact within_lineAll_iff hs.type.comments
    · exact Iff.rfl
  have hdata : ∀ w : Writer,
      (if s.isMain then w.classData types s.type (level + 1) else w).Within S ↔ w.Within S := by
    intro w
    split
    · exact within_classData htypes hs.type
    · exact Iff.rfl
  simp only [Writer.classSection]
  rw [within_closeBrace, within_trimBlank,
    within_classMethods htypes hs.methods hs.type.name.of_oneLine, hdata, within_openBrace,
    within_line, hcomments, and_iff_left (covers_classDeclaration hs.type)]

/-- A type that a source file defines. -/
theorem within_embeddedType {d : TypeDecl} (hd : d.Tidy) :
    (w.embeddedType types d level).Within S ↔ w.Within S ∧ ∀ m ∈ d.methods, m.SignatureFits S :=
  within_classSection htypes ⟨hd, hd.methods⟩

end

/-! ### Interfaces -/

/-- The name without the mark of an interface has characters of the name. -/
theorem covers_interfaceBase {name : Text} (h : S.Covers name) : S.Covers (interfaceBase name) := by
  rw [interfaceBase]
  split
  · exact h.subset (List.drop_subset _ _)
  · exact h

/-- What an extension method calls the instance it extends. One character has no letter before it,
so there is no final sigma. -/
theorem covers_instanceName {name : Text} (h : oneLine.Covers name) :
    S.Covers (instanceName name) := by
  have hbase := covers_interfaceBase h
  rw [instanceName]
  split
  · exact covers_literal (by decide)
  · rename_i c r hname
    rw [hname, covers_cons] at hbase
    refine covers_append.mpr ⟨?_, hbase.2.of_oneLine⟩
    simp only [Text.lower, Text.lowerFrom, Bool.and_false, Bool.false_and, Bool.false_eq_true,
      if_false, List.append_nil]
    split
    · exact covers_literal (by decide)
    · exact covers_cons.mpr ⟨has_lowerChar hbase.1, covers_nil⟩

/-- The type that is constructed is a word, and so on one line. -/
theorem gives_newExpression {I : Track} : newExpression.Gives I S.Covers := by
  refine Reader.gives_wordStart.bind fun _ _ => (Reader.gives_text _).bind fun _ _ => ?_
  refine Reader.gives_blanks1.bind fun _ _ => (Reader.gives_satisfy _).bind fun first hfirst => ?_
  refine (Reader.gives_many _).bind fun others hothers => ?_
  refine Reader.gives_blanks.bind fun _ _ => (Reader.gives_char _).bind fun _ _ => ?_
  have hhead : S.has first :=
    has_of_eq_true (p := fun c => 'A' ≤ c && c ≤ 'Z') (by decide) (by decide) hfirst
  exact Reader.gives_pure
    (covers_cons.mpr ⟨hhead, covers_of_forall (by decide) (by decide) hothers⟩)

/-- The type that factories construct has a name on one line, whatever their bodies are. -/
theorem covers_implementingType? {d : TypeDecl} (hd : d.Tidy) {implementations : List Method}
    {name : Text} (h : implementingType? d implementations = some name) : S.Covers name := by
  have hconventional : S.Covers (conventionalImplementation d.name) :=
    covers_cons.mpr ⟨S.has_of_ne (by decide) (by decide), covers_interfaceBase hd.name.of_oneLine⟩
  simp only [implementingType?] at h
  split at h
  · cases h
  · obtain rfl := Option.some.inj h
    cases hfound : List.findSome? (fun b : Text => (newExpression.findAll b).head?) _ with
    | none => exact hconventional
    | some found =>
        obtain ⟨b, -, hb⟩ := List.exists_of_findSome?_eq_some hfound
        exact gives_newExpression.findAll (I := Track.every) trivial found
          (List.mem_of_mem_head? hb)

/-- A parameter that is put into the first line of a signature adds its text. -/
theorem covers_addFirstParameter {parameter line : Text} (hparameter : S.Covers parameter) :
    S.Covers (addFirstParameter parameter line) ↔ S.Covers line := by
  have hsplit : ∀ n, S.Covers (line.take n) ∧ S.Covers (line.drop n) ↔ S.Covers line := by
    intro n
    rw [← covers_append, List.take_append_drop]
  simp only [addFirstParameter]
  split_ifs with hempty hopen
  · obtain ⟨t, rfl⟩ := List.isSuffixOf_iff_suffix.mp hempty
    have hdrop : (t ++ ("()" : Text)).dropLast = t ++ ("(" : Text) :=
      List.dropLast_append_of_ne_nil (by decide)
    simp (disch := decide) only [hdrop, covers_append, covers_literal, hparameter, and_true]
  · simp (disch := decide) only [covers_append, covers_literal, hparameter, and_true, hsplit]
  · simp (disch := decide) only [covers_append, covers_literal, hparameter, and_true, hsplit]

/-- So does one that is put in front of the lines of a signature. -/
theorem covers_addParameterLine {parameter : Text} {lines : List Text}
    (hparameter : S.Covers parameter) :
    (∀ l ∈ addParameterLine parameter lines, S.Covers l) ↔ ∀ l ∈ lines, S.Covers l := by
  cases lines with
  | nil => exact Iff.rfl
  | cons l r =>
      rw [addParameterLine, List.forall_mem_cons, List.forall_mem_cons,
        covers_addFirstParameter hparameter]

section

variable {w : Writer} {level : Int} {types : TypeMap} (htypes : types.Tidy) {d : TypeDecl}
  (hd : d.Tidy)

include htypes hd

/-- A static method asks for its parameters. -/
theorem within_extension {m : Method} (hm : m.Tidy) {implementing : Option Text}
    {implementations : List Method} :
    (w.extension types d implementing implementations m level).Within S ↔
      w.Within S ∧ m.SignatureFits S := by
  have hreturn : S.Covers
      (types.mapType (if isFactory m d.name then d.name else m.returnType)) := by
    refine covers_mapType htypes ?_
    split
    · exact hd.name.of_oneLine
    · exact hm.returnType.of_oneLine
  have hhead : S.Covers ("public static "
      ++ types.mapType (if isFactory m d.name then d.name else m.returnType) ++ " " ++ m.name) := by
    simp (disch := decide) only [covers_append, covers_literal, hreturn, hm.name.of_oneLine,
      and_self]
  have hinstance : S.Covers ("this " ++ d.name ++ " " ++ instanceName d.name) := by
    simp (disch := decide) only [covers_append, covers_literal, hd.name.of_oneLine,
      covers_instanceName hd.name, and_self]
  simp only [Writer.extension]
  rw [within_body hm, within_signature covers_nil, covers_addParameterLine hinstance,
    covers_signatureLines htypes hhead hm.parameters, within_lineAll_iff hm.headerComments]
  exact Iff.rfl

/-- The class of an interface's static methods adds what their signatures have. -/
theorem within_extensions {implementing : Option Text} {implementations : List Method} :
    (w.extensions types d implementing implementations level).Within S ↔
      w.Within S ∧ ∀ m ∈ staticMethods d, m.SignatureFits S := by
  have hdeclaration : S.Covers (d.visibility.keyword ++ " static class " ++ d.name
      ++ "Extensions") := by
    simp (disch := decide) only [covers_append, covers_literal, covers_keyword,
      hd.name.of_oneLine, and_self]
  simp only [Writer.extensions]
  rw [within_closeBrace, within_foldl (C := fun m : Method × Nat => m.1.SignatureFits S),
    forall_mem_zipIdx_fst, within_openBrace, within_line, and_iff_left hdeclaration]
  rintro ⟨m, i⟩ hm w
  have hmethod := (List.mem_filter.mp (List.fst_mem_of_mem_zipIdx hm)).1
  rw [within_extension htypes hd (hd.methods m hmethod)]
  split
  · rw [within_blank]
  · exact Iff.rfl

/-- An interface adds what the signatures of its methods have. -/
theorem within_contract :
    (w.contract types d level).Within S ↔
      w.Within S ∧ ∀ m ∈ contractMethods d, m.SignatureFits S := by
  refine within_foldl fun m hm w => ?_
  have hmethod := hd.methods m (List.mem_filter.mp hm).1
  have hhead : S.Covers (types.mapType m.returnType ++ " " ++ m.name) := by
    simp (disch := decide) only [covers_append, covers_literal, hmethod.name.of_oneLine,
      covers_mapType htypes hmethod.returnType.of_oneLine, and_self]
  rw [within_blank, within_signature (covers_literal (by decide)),
    covers_signatureLines htypes hhead hmethod.parameters,
    within_lineAll_iff hmethod.headerComments]
  exact Iff.rfl

/-- **An interface asks for the parameters of its contract and of its static methods.** The line
that names the implementing type asks for nothing. -/
theorem within_interface {implementations : List Method} {createAttribute : Bool} :
    (w.interface types d implementations createAttribute level).Within S ↔
      w.Within S ∧ ∀ m ∈ contractMethods d ++ staticMethods d, m.SignatureFits S := by
  have hdeclaration : S.Covers
      (withBases (d.visibility.keyword ++ " interface " ++ d.name) d.bases) := by
    refine covers_withBases ?_ (forall_covers_of_oneLine hd.bases)
    simp (disch := decide) only [covers_append, covers_literal, covers_keyword,
      hd.name.of_oneLine, and_self]
  have hconstants : ∀ w : Writer, (if d.constants.isEmpty || hasConstantsClass d then w
      else (w.constants d.constants (level + 1) (some "internal")).blank).Within S ↔
        w.Within S := by
    intro w
    split
    · exact Iff.rfl
    · rw [within_blank, within_constants (tidy_constants hd)]
      rintro a ⟨⟩
      exact covers_literal (by decide)
  have hextensions : ∀ w : Writer, (if (staticMethods d).isEmpty then w
      else w.blank.extensions types d (implementingType? d implementations) implementations
        level).Within S ↔ w.Within S ∧ ∀ m ∈ staticMethods d, m.SignatureFits S := by
    intro w
    split
    · rename_i hnone
      simp [List.isEmpty_iff.mp hnone]
    · rw [within_extensions htypes hd, within_blank]
  have hopen : (w.lineAll d.comments level).Within S ↔ w.Within S := within_lineAll_iff hd.comments
  simp only [Writer.interface]
  rw [hextensions, within_closeBrace, within_trimBlank, within_contract htypes hd, hconstants,
    within_openBrace, within_line, and_iff_left hdeclaration, List.forall_mem_append, and_assoc]
  refine and_congr_left' (Iff.trans ?_ hopen)
  split
  · rename_i name hname
    split
    · rw [within_line, and_iff_left_iff_imp]
      intro _
      simp (disch := decide) only [covers_append, covers_literal,
        covers_implementingType? hd hname, and_self]
    · exact Iff.rfl
  · exact Iff.rfl

end

end Sharpen
