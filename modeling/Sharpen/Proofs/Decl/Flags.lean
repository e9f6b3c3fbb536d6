import Mathlib.Data.List.Infix
import Sharpen.Proofs.Decl.BaseType

/-!
# Flags of a Parameter

The flags of a parameter and its base type are read off its type in three ways: `const` is looked up
among the tokens, `*` and `&` anywhere in the text, and all three are taken out of the base type
wherever they stand. So the flags speak of template arguments too, and these lose their markers.

For each flag there is an exact condition, in terms of the tokens of the type. The flag of a
constant is right, since it is looked up among the tokens. The two others are right unless a mark
stands inside of a token, that is in template arguments or in an array bound, and the base type
keeps a token whole just if there is none of the three in it.

## Main definitions

* `ParameterBlock.typeTokens` — the tokens of the type of the parameter in a block.

## Main results

* `adjacent_of_hasInfix` — two ampersands in a row are two tokens in a row, outside of brackets.
* `isPointer_iff_token`, `isReference_iff_tokens` — where two of the flags are right.
* `parameter_flags` — what each flag says of the tokens, and which tokens the base type keeps.
-/

namespace Sharpen

/-! ### Markers in a text -/

/-- The token that is an ampersand. -/
def refToken : Text :=
  ['&']

/-- The token that is a star. -/
def pointerToken : Text :=
  ['*']

/-- Two ampersands in a row are two tokens in a row, if no other token has an ampersand in it. -/
theorem adjacent_of_hasInfix {t : Text} (hclean : ∀ k ∈ typeTokens t, '&' ∈ k → k = refToken)
    (h : t.hasInfix "&&" = true) : [refToken, refToken] <:+: typeTokens t := by
  obtain ⟨u, v, rfl, -⟩ := exists_first_occurrence (by decide) h
  obtain ⟨ended, current, hu⟩ := exists_gathers u
  change ∀ k ∈ typeTokens (u ++ '&' :: '&' :: v), _ at hclean
  change _ <:+: typeTokens (u ++ '&' :: '&' :: v)
  rw [hu.typeTokens_append] at hclean ⊢
  by_cases hplace : placeBehind u = {}
  · have hmark : ∀ r, typeTokensFrom {} ('&' :: r) = ([], refToken :: typeTokens r) := fun r => by
      rw [typeTokensFrom_cons, TokenState.put_marker _ (Or.inr rfl)]
      rfl
    have hread : typeTokens ('&' :: v) = refToken :: typeTokens v := by
      rw [typeTokens, hmark]
      rfl
    rw [hplace, hmark, hread, List.append_nil, flushToken_eq_append]
    exact ⟨ended ++ flushToken current [], typeTokens v, by simp⟩
  · -- Inside of brackets the ampersand would be in the token that has the bracket.
    obtain ⟨token, htoken⟩ := exists_cons_typeTokensFrom hplace (c := '&') (by simp) ('&' :: v)
    rw [htoken, flushToken_of_ne_nil (by simp)] at hclean
    have hwhole := hclean (current ++ '&' :: token) (by simp) (by simp)
    have hbracket : '<' ∈ refToken ∨ '[' ∈ refToken := by
      rw [← hwhole]
      exact (hu.inside hplace).imp (List.mem_append_left _) (List.mem_append_left _)
    exact absurd hbracket (by decide)

/-! ### The flags -/

section

variable (b : ParameterBlock)

/-- The tokens of the type of the parameter in a block. -/
def ParameterBlock.typeTokens : List Text :=
  Sharpen.typeTokens (splitTypeAndName b.declaration).type

/-- A parameter is constant exactly when its type has the word `const`. -/
theorem ParameterBlock.parameter_isConst :
    b.parameter.isConst = b.typeTokens.contains constToken := by
  unfold constToken
  simp only [ParameterBlock.parameter, ParameterBlock.declaration, ParameterBlock.typeTokens]

/-- A parameter is a pointer if there is a star anywhere in its type. -/
theorem ParameterBlock.parameter_isPointer :
    b.parameter.isPointer = true ↔ ∃ k ∈ b.typeTokens, '*' ∈ k := by
  rw [ParameterBlock.typeTokens, ← mem_iff_exists_token (by decide), ← List.contains_iff_mem]
  simp only [ParameterBlock.parameter, ParameterBlock.declaration]

/-- It is a reference if there is an ampersand anywhere in its type, and no two in a row. -/
theorem ParameterBlock.parameter_isReference :
    b.parameter.isReference = true ↔ (∃ k ∈ b.typeTokens, '&' ∈ k) ∧
      (splitTypeAndName b.declaration).type.hasInfix "&&" = false := by
  rw [ParameterBlock.typeTokens, ← mem_iff_exists_token (by decide), ← List.contains_iff_mem,
    ← Bool.not_eq_true', ← Bool.and_eq_true]
  simp only [ParameterBlock.parameter, ParameterBlock.declaration]

/-- The flag for pointers is right where a star is a token of its own or in none at all. -/
theorem isPointer_iff_token :
    (b.parameter.isPointer = true ↔ pointerToken ∈ b.typeTokens) ↔
      (pointerToken ∈ b.typeTokens ∨ ∀ k ∈ b.typeTokens, '*' ∉ k) := by
  rw [b.parameter_isPointer]
  by_cases hpointer : pointerToken ∈ b.typeTokens
  · exact iff_of_true (iff_of_true ⟨_, hpointer, List.mem_singleton_self _⟩ hpointer)
      (Or.inl hpointer)
  · simp [hpointer]

/-- The flag for references is right where all ampersands are tokens of their own, and adjacent ones
have no blanks between them. -/
theorem isReference_iff_tokens (hclean : ∀ k ∈ b.typeTokens, '&' ∈ k → k = refToken)
    (htight : [refToken, refToken] <:+: b.typeTokens →
      (splitTypeAndName b.declaration).type.hasInfix "&&" = true) :
    b.parameter.isReference = true ↔
      refToken ∈ b.typeTokens ∧ ¬ [refToken, refToken] <:+: b.typeTokens := by
  rw [b.parameter_isReference]
  constructor
  · rintro ⟨⟨k, hk, hmem⟩, hnone⟩
    refine ⟨hclean k hk hmem ▸ hk, fun hadjacent => ?_⟩
    rw [htight hadjacent] at hnone
    cases hnone
  · rintro ⟨href, hadjacent⟩
    refine ⟨⟨refToken, href, List.mem_singleton_self _⟩, ?_⟩
    by_contra hoccurs
    exact hadjacent (adjacent_of_hasInfix hclean (by simpa using hoccurs))

/-! ### The base type -/

/-- The base type has what is left of each token. -/
theorem ParameterBlock.solid_parameter_baseType :
    b.parameter.baseType.solid = (b.typeTokens.flatMap fun k => (bareType k).solid) ++
      (if (splitTypeAndName b.declaration).isArray then "[]" else "") := by
  rw [b.parameter_baseType, solid_baseType]
  rfl

/-- No star and no ampersand is left. -/
theorem not_mem_solid_baseType {c : Char} (hc : c = '*' ∨ c = '&') :
    c ∉ b.parameter.baseType.solid := by
  rw [b.solid_parameter_baseType, List.mem_append, List.mem_flatMap]
  rintro (⟨l, -, hl⟩ | hbrackets)
  · rw [solid_bareType, List.mem_filter] at hl
    rcases hc with rfl | rfl <;> exact absurd hl.2 (by decide)
  · split at hbrackets <;> rcases hc with rfl | rfl <;> revert hbrackets <;> decide

/-- What is made of one of some texts occurs in what is made of all. -/
theorem occurs_flatMap {ks : List Text} {k : Text} (hk : k ∈ ks) (f : Text → Text) :
    f k <:+: ks.flatMap f := by
  obtain ⟨left, right, rfl⟩ := List.append_of_mem hk
  exact ⟨left.flatMap f, right.flatMap f, by simp⟩

variable {b} {k : Text}

/-- A bare token occurs in the base type. -/
theorem IsBare.occurs (h : IsBare k) (hk : k ∈ b.typeTokens) :
    k.solid <:+: b.parameter.baseType.solid := by
  rw [b.solid_parameter_baseType, ← (solid_bareType_eq_iff k).mpr h]
  exact (occurs_flatMap hk fun k => (bareType k).solid).trans (List.prefix_append _ _).isInfix

/-- A token with a star or an ampersand in it does not. -/
theorem not_occurs_of_marker (h : '*' ∈ k ∨ '&' ∈ k) :
    ¬ k.solid <:+: b.parameter.baseType.solid := by
  intro hoccurs
  rcases h with hmem | hmem
  · exact not_mem_solid_baseType b (Or.inl rfl)
      (hoccurs.subset (Text.mem_solid.mpr ⟨hmem, by decide⟩))
  · exact not_mem_solid_baseType b (Or.inr rfl)
      (hoccurs.subset (Text.mem_solid.mpr ⟨hmem, by decide⟩))

end

/-- **What the flags and the base type say of a parameter.**
It is `const` exactly if the token is there. It is a pointer if any token has a star in it, which is
right if the star is a token or in none. Where no other token has an ampersand in it, and adjacent
ampersands are written without blanks, it is a reference exactly if there is an ampersand and no two
are adjacent. The base type has what is left of each token in its place; the bare tokens are left
whole, and those with a star or an ampersand do not occur in it. -/
theorem parameter_flags (b : ParameterBlock) :
    (b.parameter.isConst = true ↔ constToken ∈ b.typeTokens) ∧
    ((b.parameter.isPointer = true ↔ pointerToken ∈ b.typeTokens) ↔
      (pointerToken ∈ b.typeTokens ∨ ∀ k ∈ b.typeTokens, '*' ∉ k)) ∧
    ((∀ k ∈ b.typeTokens, '&' ∈ k → k = refToken) →
      ([refToken, refToken] <:+: b.typeTokens →
        (splitTypeAndName b.declaration).type.hasInfix "&&" = true) →
      (b.parameter.isReference = true ↔
        refToken ∈ b.typeTokens ∧ ¬ [refToken, refToken] <:+: b.typeTokens)) ∧
    b.parameter.baseType.solid = (b.typeTokens.flatMap fun k => (bareType k).solid) ++
      (if (splitTypeAndName b.declaration).isArray then "[]" else "") ∧
    ∀ k ∈ b.typeTokens,
      ((bareType k).solid = k.solid ↔ IsBare k) ∧
      (IsBare k → k.solid <:+: b.parameter.baseType.solid) ∧
      ('*' ∈ k ∨ '&' ∈ k → ¬ k.solid <:+: b.parameter.baseType.solid) := by
  refine ⟨?_, isPointer_iff_token b, isReference_iff_tokens b, b.solid_parameter_baseType, ?_⟩
  · rw [b.parameter_isConst, List.contains_iff_mem]
  · exact fun k hk => ⟨solid_bareType_eq_iff k, fun h => h.occurs hk, not_occurs_of_marker⟩

/-- A reference to a vector is one, and the vector keeps its argument. -/
theorem parameter_flags_vector :
    (plainBlock "const vector<int>& v").parameter.isReference = true ∧
    Text.solid "vector<int>" <:+: (plainBlock "const vector<int>& v").parameter.baseType.solid := by
  obtain ⟨-, -, hreference, -, htokens⟩ := parameter_flags (plainBlock "const vector<int>& v")
  exact ⟨(hreference (by decide) (by decide)).mpr (by decide),
    (htokens "vector<int>" (by decide)).2.1 (by decide)⟩

/-- A vector of pointers is taken for a pointer, and its argument loses the star. -/
theorem not_forall_parameter_flags :
    ¬ ∀ b : ParameterBlock, (b.parameter.isPointer = true ↔ pointerToken ∈ b.typeTokens) ∧
      ∀ k ∈ b.typeTokens, '<' ∈ k → k.solid <:+: b.parameter.baseType.solid := by
  intro h
  exact absurd (h (plainBlock "vector<char*> v")).1 (by decide)

end Sharpen
