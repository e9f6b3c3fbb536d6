import Sharpen.Decl.Constant
import Sharpen.Proofs.TypeKey.Spelling

/-!
# The Form of a Constant's Value

The C# type of a constant is inferred from the value that its directive gives. What is emitted is
another text: a literal without the text macro around it, a truth value in the word that C# has for
it, and everything else as it is. The type fits all the same, because it is the one that would be
inferred from the emitted text, and the emitted text would be emitted as it is.

What is emitted is told by a relation with one rule for each form of a value, in the order in which
the forms are tried. The statements are proved rule by rule. Blanks around a value do not count, and
a text macro is recognised only with a literal of the right kind in it and nothing behind it.

## Main definitions

* `Emits` — what is emitted for a value, case by case.
* `IsSettledValue` — the values that are emitted as they are: `constantLiteral_eq_self_iff`.

## Main results

* `constantType_constantLiteral` — every value is settled when it is emitted, and keeps its type.
* `Constant.literal_ofLine?` — so the type of a constant is that of its literal.
* `macroLiteral?_spec` — a macro that is taken off stands around a literal.
-/

namespace Sharpen

/-! ### Literals and macros -/

section

variable {q : Char} {t literal : Text}

/-- A literal starts and ends with its quote. -/
theorem isLiteral_spec (h : isLiteral q t = true) : (∃ r, t = q :: r) ∧ t.getLast? = some q := by
  cases t with
  | nil => cases h
  | cons c r =>
      simp only [isLiteral, Bool.and_eq_true, beq_iff_eq] at h
      obtain ⟨⟨rfl, hlast⟩, -⟩ := h
      refine ⟨⟨r, rfl⟩, ?_⟩
      rw [← List.dropLast_append_getLast? c hlast, ← List.cons_append, List.getLast?_concat]

/-- A literal has its quotes at both ends, so there are no blanks to trim. -/
theorem trim_of_isLiteral (h : isLiteral q t = true) (hq : isBlank q = false) : t.trim = t := by
  obtain ⟨⟨r, hr⟩, hlast⟩ := isLiteral_spec h
  refine Text.trim_eq_self_iff.mpr ⟨?_, ?_⟩
  · rw [hr, Text.trimStart, List.dropWhile_cons_of_neg (by simp [hq])]
  · rw [← List.dropLast_append_getLast? q hlast, Text.trimEnd, Text.dropEndWhile,
      List.reverse_concat, List.dropWhile_cons_of_neg (by simp [hq]), ← List.reverse_concat,
      List.reverse_reverse]

/-- A text that starts otherwise is no literal. -/
theorem isLiteral_eq_false {c : Char} (hc : c ≠ q) (r : Text) : isLiteral q (c :: r) = false := by
  simp [isLiteral, hc]

/-- **A macro that is taken off** stands around a literal. -/
theorem macroLiteral?_spec {name : Text} (h : macroLiteral? name q t = some literal) :
    isLiteral q literal = true ∧ (name ++ ['(']) <+: t := by
  simp only [macroLiteral?, Option.bind_eq_bind, Option.bind_eq_some_iff] at h
  obtain ⟨r, hafter, hif⟩ := h
  split at hif
  · rename_i hform
    obtain rfl := Option.some.inj hif
    rw [Bool.and_eq_true] at hform
    refine ⟨hform.2, ?_⟩
    rw [afterText?] at hafter
    split at hafter
    · rename_i hprefix
      exact List.isPrefixOf_iff_prefix.mp hprefix
    · cases hafter
  · cases hif

/-- A macro around a character has a character literal in it, and starts with an underscore. -/
theorem charMacro?_spec (h : charMacro? t = some literal) :
    isLiteral '\'' literal = true ∧ t.head? = some '_' := by
  obtain ⟨hliteral, r, rfl⟩ := macroLiteral?_spec h
  exact ⟨hliteral, rfl⟩

/-- A macro around a string has a string literal in it, and starts so too. -/
theorem stringMacro?_spec (h : stringMacro? t = some literal) :
    isLiteral '"' literal = true ∧ t.head? = some '_' := by
  rcases Option.or_eq_some_iff.mp h with h | ⟨-, h⟩
  all_goals
    obtain ⟨hliteral, r, rfl⟩ := macroLiteral?_spec h
    exact ⟨hliteral, rfl⟩

/-- Only a text that starts with an underscore has a macro around it. -/
theorem macros_eq_none (h : t.head? ≠ some '_') : charMacro? t = none ∧ stringMacro? t = none :=
  ⟨Option.eq_none_iff_forall_ne_some.mpr fun _ hchar => h (charMacro?_spec hchar).2,
    Option.eq_none_iff_forall_ne_some.mpr fun _ hstring => h (stringMacro?_spec hstring).2⟩

/-! ### Settled values -/

/-- **A value is settled** if it has no blanks at its ends and no macro around it, and if it is the
word that C# has for a truth value where it stands for one. -/
structure IsSettledValue (t : Text) : Prop where
  trim_eq : t.trim = t
  charMacro?_eq : charMacro? t = none
  stringMacro?_eq : stringMacro? t = none
  eq_true_of_mem : t ∈ trueWords → t = "true"
  eq_false_of_mem : t ∈ falseWords → t = "false"

/-- A settled value is emitted as it is. -/
theorem IsSettledValue.constantLiteral_eq (h : IsSettledValue t) : constantLiteral t = t := by
  simp only [constantLiteral, h.trim_eq, h.charMacro?_eq, h.stringMacro?_eq, Option.or,
    List.contains_iff_mem]
  split_ifs with htrue hfalse
  · exact (h.eq_true_of_mem htrue).symm
  · exact (h.eq_false_of_mem hfalse).symm
  · rfl

/-- A literal is settled. -/
theorem isSettledValue_of_isLiteral (h : isLiteral q t = true) (hq : isQuote q = true) :
    IsSettledValue t := by
  obtain ⟨⟨r, rfl⟩, -⟩ := isLiteral_spec h
  rw [isQuote, Bool.or_eq_true, beq_iff_eq, beq_iff_eq] at hq
  have hne : q ≠ '_' ∧ isBlank q = false ∧ q ∉ trueWords.filterMap List.head? ∧
      q ∉ falseWords.filterMap List.head? := by
    rcases hq with rfl | rfl <;> decide
  obtain ⟨hunderscore, hblank, htrue, hfalse⟩ := hne
  obtain ⟨hchar, hstring⟩ := macros_eq_none (t := q :: r) (by simpa using hunderscore)
  refine ⟨trim_of_isLiteral h hblank, hchar, hstring, fun hmem => ?_, fun hmem => ?_⟩
  · exact absurd (List.mem_filterMap.mpr ⟨q :: r, hmem, List.head?_cons⟩) htrue
  · exact absurd (List.mem_filterMap.mpr ⟨q :: r, hmem, List.head?_cons⟩) hfalse

/-! ### Types by form -/

/-- The type of a character literal is `char`. -/
theorem constantType_char (h : isLiteral '\'' t = true) : constantType t = "char" := by
  rw [constantType, trim_of_isLiteral h (by decide), h, Bool.or_true, if_pos rfl]

/-- The type of a string literal is `string`. -/
theorem constantType_string (h : isLiteral '"' t = true) : constantType t = "string" := by
  obtain ⟨⟨r, rfl⟩, -⟩ := isLiteral_spec h
  obtain ⟨hchar, hstring⟩ := macros_eq_none (t := '"' :: r) (by simp)
  rw [constantType, trim_of_isLiteral h (by decide), hchar, hstring, h,
    isLiteral_eq_false (by decide)]
  rfl

/-- A macro around a character makes a `char`. -/
theorem constantType_charMacro (ht : t.trim = t) (h : charMacro? t = some literal) :
    constantType t = "char" := by
  rw [constantType, ht, h]
  rfl

/-- A macro around a string makes a `string`. -/
theorem constantType_stringMacro (ht : t.trim = t) (hchar : charMacro? t = none)
    (h : stringMacro? t = some literal) : constantType t = "string" := by
  obtain ⟨r, rfl⟩ := List.head?_eq_some_iff.mp (stringMacro?_spec h).2
  rw [constantType, ht, hchar, h, isLiteral_eq_false (by decide)]
  rfl

/-- A word for true makes a `bool`. -/
theorem constantType_trueWord (h : t ∈ trueWords) : constantType t = "bool" := by
  have hall : ∀ w ∈ trueWords, constantType w = "bool" := by decide
  exact hall t h

/-- So does a word for false. -/
theorem constantType_falseWord (h : t ∈ falseWords) : constantType t = "bool" := by
  have hall : ∀ w ∈ falseWords, constantType w = "bool" := by decide
  exact hall t h

/-! ### What is emitted -/

/-- **What is emitted for a value** without blanks at its ends. -/
inductive Emits (t : Text) : Text → Prop
  /-- A character literal loses its macro. -/
  | charMacro {literal : Text} : charMacro? t = some literal → Emits t literal
  /-- So does a string literal. -/
  | stringMacro {literal : Text} : charMacro? t = none → stringMacro? t = some literal →
      Emits t literal
  | trueWord : t ∈ trueWords → Emits t "true"
  | falseWord : t ∈ falseWords → Emits t "false"
  /-- All else stays. -/
  | same : charMacro? t = none → stringMacro? t = none → t ∉ trueWords → t ∉ falseWords → Emits t t

/-- Each value is written in one of the forms that there are. -/
theorem emits_constantLiteral (value : Text) : Emits value.trim (constantLiteral value) := by
  simp only [constantLiteral]
  cases hchar : charMacro? value.trim with
  | some literal => exact .charMacro hchar
  | none =>
      rw [Option.none_or]
      cases hstring : stringMacro? value.trim with
      | some literal => exact .stringMacro hchar hstring
      | none =>
          simp only [List.contains_iff_mem]
          split_ifs with htrue hfalse
          · exact .trueWord htrue
          · exact .falseWord hfalse
          · exact .same hchar hstring htrue hfalse

namespace Emits

variable {w : Text} (h : Emits t w) (ht : t.trim = t)

include h ht

/-- What is emitted is settled. -/
theorem isSettledValue : IsSettledValue w := by
  cases h with
  | charMacro h => exact isSettledValue_of_isLiteral (charMacro?_spec h).1 (by decide)
  | stringMacro _ h => exact isSettledValue_of_isLiteral (stringMacro?_spec h).1 (by decide)
  | trueWord => exact ⟨by decide, by decide, by decide, by decide, by decide⟩
  | falseWord => exact ⟨by decide, by decide, by decide, by decide, by decide⟩
  | same hchar hstring htrue hfalse =>
      exact ⟨ht, hchar, hstring, fun hmem => absurd hmem htrue, fun hmem => absurd hmem hfalse⟩

/-- It has the type of the value. -/
theorem constantType_eq : constantType w = constantType t := by
  cases h with
  | charMacro h =>
      rw [constantType_char (charMacro?_spec h).1, constantType_charMacro ht h]
  | stringMacro hchar h =>
      rw [constantType_string (stringMacro?_spec h).1, constantType_stringMacro ht hchar h]
  | trueWord h => rw [constantType_trueWord h, constantType_trueWord (by decide)]
  | falseWord h => rw [constantType_falseWord h, constantType_falseWord (by decide)]
  | same => rfl

end Emits

end

/-- A value that is written is settled. -/
theorem isSettledValue_constantLiteral (value : Text) : IsSettledValue (constantLiteral value) :=
  (emits_constantLiteral value).isSettledValue (Text.trim_trim value)

/-- **Settled values, and no others, are emitted as they are.** -/
theorem constantLiteral_eq_self_iff {value : Text} :
    constantLiteral value = value ↔ IsSettledValue value :=
  ⟨fun h => h ▸ isSettledValue_constantLiteral value, IsSettledValue.constantLiteral_eq⟩

/-- Blanks around a value do not change its type. -/
theorem constantType_trim (value : Text) : constantType value.trim = constantType value := by
  rw [constantType, constantType, Text.trim_trim]

/-- A value has one type as it was read and as it is written. -/
theorem constantType_emitted (value : Text) :
    constantType (constantLiteral value) = constantType value :=
  ((emits_constantLiteral value).constantType_eq (Text.trim_trim value)).trans
    (constantType_trim value)

/-- **The type of a constant is that of its literal**, which is settled. -/
theorem Constant.literal_ofLine? {line originFile : Text} {fromHeader : Bool}
    {comments : List Text} {position : Nat} {c : Constant}
    (h : Constant.ofLine? line originFile fromHeader comments position = some c) :
    constantType c.literal = c.type ∧ IsSettledValue c.literal := by
  obtain ⟨d, -, rfl⟩ := Option.map_eq_some_iff.mp h
  exact ⟨constantType_emitted d.value, isSettledValue_constantLiteral d.value⟩

/-- **Inference and emission agree.** The type inferred from a value is the one inferred from what
is emitted for it, and what is emitted is emitted as it is. -/
theorem constantType_constantLiteral (value : Text) :
    constantType (constantLiteral value) = constantType value ∧
      constantLiteral (constantLiteral value) = constantLiteral value :=
  ⟨constantType_emitted value,
    constantLiteral_eq_self_iff.mpr (isSettledValue_constantLiteral value)⟩

/-- A macro around a string with a quote and a parenthesis in it. -/
example : constantLiteral " _T( \"a\\\")\" ) " = "\"a\\\")\"" ∧
    constantType " _T( \"a\\\")\" ) " = "string" := by
  decide

end Sharpen
