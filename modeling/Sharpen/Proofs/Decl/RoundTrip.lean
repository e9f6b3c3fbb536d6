import Mathlib.Data.List.Forall2
import Sharpen.Proofs.Decl.PlainParameter
import Sharpen.Proofs.TypeKey.Exact

/-!
# Parameter Lists Are Read Back

A list of plain parameters, written in any of the ways the language allows, is read back parameter
by parameter. The text is cut at its separator commas, a block has no comments to lose, its default
value starts at the one `=` that counts, and its declaration is cut into the tokens it was written
from.

A block is taken apart three times: its comments are taken out, its default value is cut off, and
its declaration is divided into type and name. Each cut is shown to fall where the text was put
together. The hypotheses on plain parameters are what the three need, and the cutting of the list
needs that each text is closed.

## Main definitions

* `ReadAs` — what a parameter says of the plain one that it was read from.

## Main results

* `splitDefault_eq`, `splitTypeAndName_eq` — a block is taken apart where it was put together.
* `readAs_parseParameters` — the parameters of a list are the plain ones it was written from, in
  order.
* `readAs_parameter` — a block is read as the parameter it was written from.
-/

namespace Sharpen

/-! ### Closed texts and their ends -/

/-- Blanks behind a closed text keep it closed. -/
theorem isClosedFrom_append_blank {zone : Zone} {d : BlockDepth} {u v : Text}
    (h : isClosedFrom zone d u = true) (hv : v.isBlank = true) :
    isClosedFrom zone d (u ++ v) = true := by
  have hmark : opensComment '/' v = false := by
    cases v with
    | nil => rfl
    | cons c r =>
        simp only [Text.isBlank, List.all_cons, Bool.and_eq_true] at hv
        have hc : c ≠ '/' ∧ c ≠ '*' := by
          constructor <;>
            · rintro rfl
              exact absurd hv.1 (by decide)
        simp [opensComment, hc]
  fun_induction isClosedFrom zone d u with
  | case1 d =>
      obtain rfl : d = {} := by simpa using h
      have hclosed := (isInert_isBlank.isPassedOver hv).isClosed_append []
      rw [List.append_nil] at hclosed
      exact hclosed
  | case2 d c r hquote ih =>
      rw [List.cons_append, isClosedFrom, if_pos hquote]
      exact ih h
  | case3 d c r hquote ih =>
      simp only [Bool.and_eq_true, Bool.not_eq_true'] at h
      rw [List.cons_append, isClosedFrom, if_neg hquote, opensComment_append h.1.1 hmark, h.1.2,
        ih h.2]
      rfl
  | case4 q d c r zone ih =>
      rw [Bool.and_eq_true] at h
      rw [List.cons_append, isClosedFrom, h.1, ih h.2]
      rfl
  | case5 q d c r ih =>
      rw [Bool.and_eq_true] at h
      rw [List.cons_append, isClosedFrom, h.1, ih h.2]
      rfl
  | case6 => exact absurd h (by decide)

/-- A closed text ends with a comma only if it is reached inside of a literal that a comma closes. A
comma at depth zero separates two blocks, and at any other depth something is open. -/
theorem zone_eq_of_ends_comma {zone : Zone} {d : BlockDepth} {t : Text}
    (h : isClosedFrom zone d (t ++ [',']) = true) :
    zone = .literal ',' ∨ zone = .escaped ',' := by
  generalize hu : t ++ [','] = u at h
  fun_induction isClosedFrom zone d u generalizing t with
  | case1 d => exact absurd hu (by simp)
  | case2 d c r hquote ih =>
      cases t with
      | nil =>
          obtain ⟨rfl, rfl⟩ := List.cons.inj hu
          exact absurd hquote (by decide)
      | cons _ t =>
          obtain ⟨-, hr⟩ := List.cons.inj hu
          rcases ih hr h with hc | hc
          · obtain rfl : c = ',' := by simpa using hc
            exact absurd hquote (by decide)
          · exact absurd hc (by simp)
  | case3 d c r hquote ih =>
      simp only [Bool.and_eq_true, Bool.not_eq_true'] at h
      cases t with
      | nil =>
          obtain ⟨rfl, rfl⟩ := List.cons.inj hu
          have hdepth : d = {} := by simpa [isClosedFrom, BlockDepth.after] using h.2
          rw [hdepth] at h
          exact absurd h.1.2 (by decide)
      | cons _ t =>
          obtain ⟨-, hr⟩ := List.cons.inj hu
          rcases ih hr h.2 with hc | hc <;> exact absurd hc (by simp)
  | case4 q d c r zone =>
      rename_i ih
      rw [Bool.and_eq_true] at h
      cases t with
      | nil =>
          obtain ⟨rfl, rfl⟩ := List.cons.inj hu
          by_cases hq : q = ','
          · exact Or.inl (by rw [hq])
          · have hopen : zone = .literal q := by simp [zone, Ne.symm hq]
            rw [hopen] at h
            exact absurd h.2 (by simp [isClosedFrom])
      | cons _ t =>
          obtain ⟨-, hr⟩ := List.cons.inj hu
          have hzone := ih hr h.2
          simp only [zone] at hzone
          split_ifs at hzone
          · simpa using hzone
          · exact absurd hzone (by simp)
          · simpa using hzone
  | case5 q d c r ih =>
      rw [Bool.and_eq_true] at h
      cases t with
      | nil =>
          obtain ⟨rfl, rfl⟩ := List.cons.inj hu
          exact absurd h.2 (by simp [isClosedFrom])
      | cons _ t =>
          obtain ⟨-, hr⟩ := List.cons.inj hu
          simpa using ih hr h.2
  | case6 => exact absurd h (by decide)

/-- What is dropped from the end of two texts is part of the second one, or all of it and part of
the first. -/
theorem Text.dropEndWhile_append_eq_ite (p : Char → Bool) (u v : Text) :
    Text.dropEndWhile p (u ++ v)
      = if v.all p then u.dropEndWhile p else u ++ v.dropEndWhile p := by
  have hall : (v.reverse.dropWhile p).isEmpty = v.all p := by
    rw [Bool.eq_iff_iff, List.isEmpty_iff, List.dropWhile_eq_nil_iff, List.all_eq_true]
    simp
  rw [Text.dropEndWhile, List.reverse_append, List.dropWhile_append, hall]
  split_ifs
  · rfl
  · rw [List.reverse_append, List.reverse_reverse]
    rfl

/-- What is dropped from the end of a text stops at a part that nothing is dropped from. -/
theorem Text.dropEndWhile_append {p : Char → Bool} {u : Text} (hu : Text.dropEndWhile p u = u)
    (v : Text) : Text.dropEndWhile p (u ++ v) = u ++ Text.dropEndWhile p v := by
  rw [Text.dropEndWhile_append_eq_ite, hu]
  split_ifs with hv
  · have hnone := Text.dropEndWhile_append_eq_ite p [] v
    rw [if_pos hv, List.nil_append] at hnone
    rw [hnone]
    exact (List.append_nil u).symm
  · rfl

/-- What is left of blanks is blank. -/
theorem isBlank_dropEndWhile {p : Char → Bool} {t : Text} (ht : t.isBlank = true) :
    (Text.dropEndWhile p t).isBlank = true := by
  rw [Text.isBlank, List.all_eq_true] at ht ⊢
  intro c hc
  rw [Text.dropEndWhile, List.mem_reverse] at hc
  exact ht c (List.mem_reverse.mp ((List.dropWhile_suffix p).mem hc))

/-- The characters that are dropped behind a block before it is divided. -/
def isTrailing (c : Char) : Bool :=
  c == ',' || isSpaceOrTab c || c == '\n' || c == '\r'

/-- These are commas, blanks of a line and the characters that end one. -/
theorem isTrailing_eq :
    isTrailing = fun c => c == ',' || isSpaceOrTab c || c == '\n' || c == '\r' :=
  rfl

/-- Nothing is dropped from the end of a closed text without blanks there. -/
theorem dropEndWhile_closed {t : Text} (ht : isClosed t = true) (hend : t.trimEnd = t) :
    t.dropEndWhile isTrailing = t := by
  rcases List.eq_nil_or_concat' t with rfl | ⟨u, c, rfl⟩
  · rfl
  have hcomma : c ≠ ',' := by
    rintro rfl
    rcases zone_eq_of_ends_comma ht with hzone | hzone <;> exact absurd hzone (by simp)
  have hblank := Text.isBlank_last hend
  have hkeep : ∀ e, isBlank e = true → c ≠ e := by
    rintro e he rfl
    exact absurd he (by simp [hblank])
  have hspace := hkeep ' ' (by decide)
  have htab := hkeep '\t' (by decide)
  have hnewline := hkeep '\n' (by decide)
  have hreturn := hkeep '\r' (by decide)
  simp [Text.dropEndWhile, isTrailing, isSpaceOrTab, hcomma, hspace, htab, hnewline, hreturn]

/-! ### Taking a block apart -/

/-- A text that is passed over has no default value. -/
theorem IsPassedOver.defaultSeparator?_eq_none {u : Text} (hu : IsPassedOver u) :
    defaultSeparator? u = none := by
  have happ := hu.defaultSeparator?_append []
  rw [List.append_nil] at happ
  rw [happ]
  rfl

/-- Behind such a text `=` starts the default value. -/
theorem IsPassedOver.defaultSeparator?_eq_some {u : Text} (hu : IsPassedOver u) (r : Text) :
    defaultSeparator? (u ++ '=' :: r) = some u.length := by
  have hequals : defaultSeparator? ('=' :: r) = some 0 := rfl
  rw [hu.defaultSeparator?_append, hequals, Option.map_some, Nat.zero_add]

/-- A block without a default value is left as it is, but for its end. -/
theorem splitDefault_of_isPassedOver {t u : Text} (ht : t.dropEndWhile isTrailing = u)
    (hu : IsPassedOver u) : splitDefault t = (u, none) := by
  rw [splitDefault, ← isTrailing_eq, ht, hu.defaultSeparator?_eq_none]

/-- A block with a default value is divided at its `=`. -/
theorem splitDefault_of_equals {t u r : Text} (ht : t.dropEndWhile isTrailing = u ++ '=' :: r)
    (hu : IsPassedOver u) : splitDefault t = (u.trim, some r.trim) := by
  have hdrop : (u ++ '=' :: r).drop (u.length + 1) = r := by
    rw [← List.drop_drop, List.drop_left, List.drop_one, List.tail_cons]
  rw [splitDefault, ← isTrailing_eq, ht, hu.defaultSeparator?_eq_some]
  simp only [List.take_left, hdrop]

/-- What it takes to be a default value. -/
theorem isDefaultValue_spec {v : Text} (h : isDefaultValue v = true) :
    v ≠ [] ∧ v.trim = v ∧ isClosed v = true := by
  simp only [isDefaultValue, Bool.and_eq_true, Bool.not_eq_true', beq_iff_eq] at h
  refine ⟨?_, h.1.2, h.2⟩
  rintro rfl
  exact absurd h.1.1 (by decide)

section

variable {d? : Option Text} {value : Text}

/-- The text behind the name is closed. -/
theorem WritesDefault.isClosed (h : WritesDefault d? value)
    (hd : ∀ v ∈ d?, isDefaultValue v = true) : isClosed value = true := by
  cases h with
  | none => rfl
  | @some gap gap' v hgap hgap' =>
      have hequals : Sharpen.isClosed ('=' :: (gap' ++ v)) = Sharpen.isClosed (gap' ++ v) := rfl
      rw [(isInert_isBlank.isPassedOver hgap).isClosed_append, hequals,
        (isInert_isBlank.isPassedOver hgap').isClosed_append]
      exact (isDefaultValue_spec (hd v rfl)).2.2

/-- It does not end with a blank, so that a text that ends with it does not either. -/
theorem WritesDefault.trimEnd_append (h : WritesDefault d? value)
    (hd : ∀ v ∈ d?, isDefaultValue v = true) {u : Text} (hu : u.trimEnd = u) :
    Text.trimEnd (u ++ value) = u ++ value := by
  cases h with
  | none => rw [List.append_nil, hu]
  | @some gap gap' v hgap hgap' =>
      obtain ⟨hne, htrim, -⟩ := isDefaultValue_spec (hd v rfl)
      have happ := Text.trimEnd_append (Text.trim_eq_self_iff.mp htrim).2 hne
        (u ++ (gap ++ '=' :: gap'))
      simpa using happ

end

namespace PlainParameter

variable {p : PlainParameter} {t : Text}

/-- The tokens of a plain parameter and its name are type tokens. -/
theorem isTypeToken_of_mem (p : PlainParameter) :
    ∀ k ∈ p.type ++ [p.name], isTypeToken k = true := by
  intro k hk
  rcases List.mem_append.mp hk with hk | hk
  · exact p.isTypeToken_type k hk
  · rw [List.mem_singleton.mp hk]
    exact isTypeToken_of_isParameterName p.isParameterName_name

/-- They are plain. -/
theorem isPlainToken_of_mem (p : PlainParameter) : ∀ k ∈ p.type ++ [p.name], IsPlainToken k :=
  fun k hk => isPlainToken_of_isTypeToken (p.isTypeToken_of_mem k hk)

/-- A written parameter has neither a comment nor a separator. -/
theorem Writes.isClosed (h : p.Writes t) : Sharpen.isClosed t = true := by
  obtain ⟨lead, declaration, value, trail, hlead, htrail, hspells, hvalue, rfl⟩ := h
  rw [(isInert_isBlank.isPassedOver hlead).isClosed_append,
    (isPassedOver_of_spells hspells p.isTypeToken_of_mem).isClosed_append]
  exact isClosedFrom_append_blank (hvalue.isClosed p.isDefaultValue_default) htrail

/-- It has something in it. -/
theorem Writes.isBlank_eq_false (h : p.Writes t) : t.isBlank = false := by
  obtain ⟨lead, declaration, value, trail, -, -, hspells, -, rfl⟩ := h
  have hne := hspells.ne_nil p.isPlainToken_of_mem
  have htrim := hspells.trim_eq p.isPlainToken_of_mem
  cases declaration with
  | nil => exact absurd rfl hne
  | cons c r =>
      have hc := Text.isBlank_head (Text.trim_eq_self_iff.mp htrim).1
      simp [Text.isBlank, hc]

/-- The default value of a written parameter is found, and what is left spells the rest. -/
theorem Writes.splitDefault_eq (h : p.Writes t) :
    ∃ u, splitDefault t = (u, p.default?) ∧ Spells (p.type ++ [p.name]) u.trim := by
  obtain ⟨lead, declaration, value, trail, hlead, htrail, hspells, hvalue, rfl⟩ := h
  have hne := hspells.ne_nil p.isPlainToken_of_mem
  have htrim := hspells.trim_eq p.isPlainToken_of_mem
  have hpassed := (isInert_isBlank.isPassedOver hlead).append
    (isPassedOver_of_spells hspells p.isTypeToken_of_mem)
  have hclosed : Sharpen.isClosed (lead ++ declaration ++ value) = true := by
    rw [hpassed.isClosed_append]
    exact hvalue.isClosed p.isDefaultValue_default
  have hend : Text.trimEnd (lead ++ declaration ++ value) = lead ++ declaration ++ value :=
    hvalue.trimEnd_append p.isDefaultValue_default
      (Text.trimEnd_append (Text.trim_eq_self_iff.mp htrim).2 hne lead)
  have hdrop : Text.dropEndWhile isTrailing (lead ++ (declaration ++ (value ++ trail)))
      = lead ++ declaration ++ value ++ Text.dropEndWhile isTrailing trail := by
    rw [← Text.dropEndWhile_append (dropEndWhile_closed hclosed hend)]
    simp
  have hrest : (Text.dropEndWhile isTrailing trail).isBlank = true := isBlank_dropEndWhile htrail
  have hdefault := p.isDefaultValue_default
  generalize Text.dropEndWhile isTrailing trail = rest at hdrop hrest
  generalize p.default? = d? at hvalue hdefault ⊢
  cases hvalue with
  | none =>
      rw [List.append_nil] at hdrop
      refine ⟨lead ++ declaration ++ rest, splitDefault_of_isPassedOver hdrop
        (hpassed.append (isInert_isBlank.isPassedOver hrest)), ?_⟩
      rwa [Text.trim_pad htrim hne hlead hrest]
  | @some gap gap' v hgap hgap' =>
      obtain ⟨hvne, hvtrim, -⟩ := isDefaultValue_spec (hdefault v rfl)
      have hcut : lead ++ declaration ++ (gap ++ '=' :: (gap' ++ v)) ++ rest
          = lead ++ declaration ++ gap ++ '=' :: (gap' ++ v ++ rest) := by simp
      have hsplit := splitDefault_of_equals (hdrop.trans hcut)
        (hpassed.append (isInert_isBlank.isPassedOver hgap))
      rw [Text.trim_pad htrim hne hlead hgap, Text.trim_pad hvtrim hvne hgap' hrest] at hsplit
      exact ⟨declaration, hsplit, by rwa [htrim]⟩

end PlainParameter

/-- A type token is no array bound. -/
theorem isArrayBound_eq_false {k : Text} (h : isTypeToken k = true) : isArrayBound k = false := by
  rcases isTypeToken_cases h with hmarker | ⟨w, u, rfl, hne, hw, -⟩
  · simp only [isMarker, Bool.or_eq_true, beq_iff_eq] at hmarker
    rcases hmarker with rfl | rfl <;> decide
  · cases w with
    | nil => exact absurd rfl hne
    | cons c r =>
        simp only [List.all_cons, Bool.and_eq_true] at hw
        have hc : ¬ '[' = c := by
          rintro rfl
          exact absurd hw.1 (by decide)
        simp [isArrayBound, Text.startsWith, List.isPrefixOf, hc]

/-- A name is no modifier, names no type on its own and has no template arguments. -/
theorem isParameterName_spec {n : Text} (h : isParameterName n = true) :
    isModifier n = false ∧ builtinTypeWords.contains n = false ∧ n.contains '<' = false := by
  simp only [isParameterName, Bool.and_eq_true, Bool.not_eq_true', bne_iff_ne] at h
  obtain ⟨⟨⟨-, hword⟩, hconst⟩, hbuiltin⟩ := h
  have hmem : ∀ c, isWord c = false → c ∉ n := fun c hc hmem => by
    rw [List.all_eq_true.mp hword c hmem] at hc
    exact absurd hc (by decide)
  refine ⟨isModifier_eq_false_iff.mpr ⟨?_, hconst⟩, hbuiltin, ?_⟩
  · rw [isMarker, Bool.or_eq_false_iff, beq_eq_false_iff_ne, beq_eq_false_iff_ne]
    constructor <;> rintro rfl
    · exact hmem '*' (by decide) List.mem_cons_self
    · exact hmem '&' (by decide) List.mem_cons_self
  · simpa using hmem '<' (by decide)

/-- The name stands last, and so its index is the number of type tokens. -/
theorem nameIndex?_eq (p : PlainParameter) :
    nameIndex? (p.type ++ [p.name]) = some p.type.length := by
  have hmodifier := (isParameterName_spec p.isParameterName_name).1
  have hbound := isArrayBound_eq_false (isTypeToken_of_isParameterName p.isParameterName_name)
  have hfind : (p.type ++ [p.name]).reverse.findIdx? (fun k => !(isArrayBound k || isModifier k))
      = some 0 := by
    simp [List.findIdx?_cons, hmodifier, hbound]
  simp only [nameIndex?, hfind, Option.map_some, List.length_append, List.length_singleton,
    Nat.add_sub_cancel, Nat.sub_zero]

/-- The declaration of a plain parameter is divided into its type tokens and its name. -/
theorem splitTypeAndName_eq {p : PlainParameter} {u : Text}
    (h : Spells (p.type ++ [p.name]) u.trim) :
    splitTypeAndName u = ⟨joinTokens p.type, p.name, false⟩ := by
  have htokens := h.typeTokens_eq p.isPlainToken_of_mem
  obtain ⟨hmodifier, hbuiltin, htemplate⟩ := isParameterName_spec p.isParameterName_name
  have hbound : ∀ k ∈ p.type ++ [p.name], isArrayBound k = false := fun k hk =>
    isArrayBound_eq_false (p.isTypeToken_of_mem k hk)
  have hany : (p.type ++ [p.name]).any isArrayBound = false :=
    List.any_eq_false.mpr fun k hk => by simp [hbound k hk]
  have hfilter : p.type.filter (fun k => !isArrayBound k) = p.type :=
    List.filter_eq_self.mpr fun k hk => by simp [hbound k (List.mem_append_left _ hk)]
  obtain ⟨i, hi⟩ := Nat.exists_eq_succ_of_ne_zero (mt List.length_eq_zero_iff.mp p.type_ne_nil)
  have hname : (p.type ++ [p.name]).getD (i + 1) [] = p.name := by
    rw [← Nat.succ_eq_add_one, ← hi]
    simp
  have hrest : (p.type ++ [p.name]).eraseIdx (i + 1) = p.type := by
    rw [← Nat.succ_eq_add_one, ← hi, List.eraseIdx_append_of_length_le (Nat.le_refl _)]
    simp
  simp only [splitTypeAndName, htokens, List.getLast?_concat, hmodifier, nameIndex?_eq, hi, hname,
    hbuiltin, htemplate, hrest, hfilter, hany, Bool.or_false, Bool.false_eq_true, if_false]

/-! ### The round trip -/

/-- What a parameter says of the plain one it was read from. -/
structure ReadAs (p : PlainParameter) (q : Parameter) : Prop where
  name : q.name = p.name
  default? : q.default? = p.default?
  isConst : q.isConst = true ↔ constToken ∈ p.type
  key : q.key = typeKey (Text.join " " p.type)

/-- Tokens give the same key however they are spelled. -/
theorem typeKey_joinTokens (p : PlainParameter) :
    typeTokens (joinTokens p.type) = p.type ∧
      typeKey (joinTokens p.type) = typeKey (Text.join " " p.type) := by
  have hplain : ∀ k ∈ p.type, IsPlainToken k := fun k hk =>
    p.isPlainToken_of_mem k (List.mem_append_left _ hk)
  have hsettled := (spells_joinTokens p.type_ne_nil hplain).typeTokens_eq hplain
  have hspaced := (spells_join p.type_ne_nil).typeTokens_eq hplain
  refine ⟨hsettled, ?_⟩
  simp only [typeKey, hsettled, hspaced]

/-- **A block is read as the parameter it was written from.** -/
theorem readAs_parameter {p : PlainParameter} {b : ParameterBlock} (h : p.Writes b.text) :
    ReadAs p b.parameter := by
  obtain ⟨u, hdefault, hspells⟩ := h.splitDefault_eq
  obtain ⟨htokens, hkey⟩ := typeKey_joinTokens p
  have hread : b.parameter.name = p.name ∧ b.parameter.default? = p.default? ∧
      b.parameter.isConst = (typeTokens (joinTokens p.type)).contains constToken ∧
      b.parameter.key = typeKey (joinTokens p.type) := by
    rw [ParameterBlock.parameter, separateComments_eq h.isClosed]
    simp only [hdefault, splitTypeAndName_eq hspells, true_and, and_true]
    rfl
  obtain ⟨hname, hvalue, hconst, hkeyed⟩ := hread
  refine ⟨hname, hvalue, ?_, hkeyed.trans hkey⟩
  rw [hconst, htokens, List.contains_iff_mem]

/-- A list in which every parameter has a name does not stand for an empty one. -/
theorem isVoidList_eq_false {qs : List Parameter} (h : ∀ q ∈ qs, q.name ≠ []) :
    isVoidList qs = false := by
  match qs with
  | [] => rfl
  | [q] => simp [isVoidList, h q List.mem_cons_self]
  | _ :: _ :: _ => rfl

/-- What one side of a relation between two lists gives for each element of the other. -/
theorem forall_mem_right {α β : Type} {R : α → β → Prop} {P : β → Prop} {as : List α} {bs : List β}
    (h : List.Forall₂ R as bs) (himp : ∀ a b, R a b → P b) : ∀ b ∈ bs, P b := by
  induction h with
  | nil => simp
  | cons hab _ ih =>
      intro b hb
      rcases List.mem_cons.mp hb with rfl | hb
      · exact himp _ _ hab
      · exact ih b hb

/-- **Parameter lists are read back.** Plain parameters, written one after the other and joined by
commas, are read as just these parameters: each has the name, the default value and the type that it
was written with. -/
theorem readAs_parseParameters {ps : List PlainParameter} {ts : List Text}
    (h : List.Forall₂ PlainParameter.Writes ps ts) :
    List.Forall₂ ReadAs ps (parseParameters (Text.join "," ts)) := by
  have hblocks : (parameterBlocks (Text.join "," ts)).map (·.text) = ts :=
    map_text_parameterBlocks (forall_mem_right h fun _ _ hp => ⟨hp.isClosed, hp.isBlank_eq_false⟩)
  rw [← hblocks, List.forall₂_map_right_iff] at h
  have hread : List.Forall₂ ReadAs ps
      ((parameterBlocks (Text.join "," ts)).map ParameterBlock.parameter) :=
    List.forall₂_map_right_iff.mpr (h.imp fun _ _ hp => readAs_parameter hp)
  have hnamed := forall_mem_right (P := fun q => q.name ≠ []) hread fun p q hq => by
    rw [hq.name]
    exact (p.isPlainToken_of_mem p.name (by simp)).ne_nil
  rw [parseParameters, isVoidList_eq_false hnamed]
  exact hread

/-- A map, a counter and a name; the default values have commas, brackets and an equality in them,
and one is written without blanks around its sign. -/
def sampleParameters : List PlainParameter :=
  [{ type := ["const", "map<int, pair<char *, T> >", "&"]
     name := "m"
     default? := some "f(\"a,b\", ',') == x->y"
     type_ne_nil := by decide
     isTypeToken_type := by decide
     isParameterName_name := by decide
     isDefaultValue_default := by decide },
   { type := ["unsigned", "long", "*"]
     name := "count"
     default? := none
     type_ne_nil := by decide
     isTypeToken_type := by decide
     isParameterName_name := by decide
     isDefaultValue_default := by decide },
   { type := ["std::string"]
     name := "name"
     default? := some "\")\""
     type_ne_nil := by decide
     isTypeToken_type := by decide
     isParameterName_name := by decide
     isDefaultValue_default := by decide }]

/-- The three parameters as a header might have them, on two lines. -/
def sampleTexts : List Text :=
  ["const map<int, pair<char *, T> > &m = f(\"a,b\", ',') == x->y", " unsigned  long*count",
   "\n  std::string name=\")\" "]

/-- They are read back from these texts. -/
theorem readAs_parseParameters_sample :
    List.Forall₂ PlainParameter.Writes sampleParameters sampleTexts ∧
      List.Forall₂ ReadAs sampleParameters (parseParameters (Text.join "," sampleTexts)) := by
  have hspace : Text.isBlank " " = true := by decide
  have hnone : Text.isBlank "" = true := by decide
  have hwrites : List.Forall₂ PlainParameter.Writes sampleParameters sampleTexts := by
    refine .cons ?_ (.cons ?_ (.cons ?_ .nil))
    · exact ⟨"", _, _, "", hnone, hnone,
        .cons hspace (.inl (by decide)) (.cons hspace (.inl (by decide))
          (.cons hnone (.inr (.inl (by decide))) (.last _))),
        .some hspace hspace, by decide⟩
    · exact ⟨" ", _, _, "", hspace, hnone,
        .cons (show Text.isBlank "  " = true by decide) (.inl (by decide))
          (.cons hnone (.inr (.inr (by decide))) (.cons hnone (.inr (.inl (by decide))) (.last _))),
        .none, by decide⟩
    · exact ⟨"\n  ", _, _, " ", by decide, hspace, .cons hspace (.inl (by decide)) (.last _),
        .some hnone hnone, by decide⟩
  exact ⟨hwrites, readAs_parseParameters hwrites⟩

end Sharpen
