import Sharpen.Decl.ParameterList
import Sharpen.Proofs.Decl.BaseType
import Sharpen.Proofs.Plan.Pairing

/-!
# Array Parameters Have No Key of Their Own

An array bound is taken out of a declaration before its key is made, and comes back in the base type
alone. So parameters that differ in nothing but their array bounds share a key, and overloads that
differ in such a parameter alone are taken for one another.

A declaration is divided at its last name, and array bounds are dropped from its tokens before that.
The statement is made for declarations in which brackets stand for bounds and nothing else. Two such
declarations with the same tokens but for the bounds have the same key, in whatever way the bounds
differ: in their number, in their text, or in being there at all.

## Main definitions

* `IsProper` — declarations in which brackets stand for array bounds.
* `declTokens` — the tokens of a declaration.
* `hasBound` — whether a declaration has an array bound.
* `endsInModifier` — whether a declaration ends in a modifier, so that no name can follow its type.
* `boundlessTokens` — the tokens of a declaration but its array bounds.

## Main results

* `splitTypeAndName_eq_divideTokens` — a declaration is divided by its tokens without bounds, if it
  does not end in a modifier.
* `endsWith_baseType` — a base type ends in `[]` exactly if the declaration has a bound.
* `typeKey_eq_of_sameButBounds` — bounds do not reach the key.
* `key_ignores_bounds` — the last two together, and what they mean for overloads.
-/

namespace Sharpen

/-! ### Declarations and their bounds -/

/-- The tokens of a declaration. -/
def declTokens (t : Text) : List Text :=
  typeTokens t.trim

/-- Whether a declaration has an array bound. -/
def hasBound (t : Text) : Bool :=
  (declTokens t).any isArrayBound

/-- Whether a declaration ends in a modifier, so that no name can follow its type. -/
def endsInModifier (t : Text) : Bool :=
  (declTokens t).getLast?.any isModifier

/-- The tokens of a declaration but its array bounds. -/
def boundlessTokens (t : Text) : List Text :=
  (declTokens t).filter fun k => !isArrayBound k

/-- A declaration in which brackets stand for array bounds only. The bounds are behind the type, and
no modifier is at the end if there are any. -/
def IsProper (t : Text) : Prop :=
  (∀ k ∈ declTokens t, isArrayBound k = true ∨ '[' ∉ k) ∧
    (∀ k ∈ (declTokens t).head?, isArrayBound k = false) ∧
    (endsInModifier t = true → hasBound t = false)

instance (t : Text) : Decidable (IsProper t) :=
  inferInstanceAs (Decidable (_ ∧ _ ∧ _))

/-- Two declarations that differ in nothing but their array bounds. -/
def SameButBounds (t u : Text) : Prop :=
  boundlessTokens t = boundlessTokens u ∧ endsInModifier t = endsInModifier u

instance (t u : Text) : Decidable (SameButBounds t u) :=
  inferInstanceAs (Decidable (_ ∧ _))

/-! ### The base type -/

/-- The characters of joined tokens are spaces and those of the tokens. -/
theorem mem_joinTokensAfter {prev : Text} {ks : List Text} {c : Char}
    (h : c ∈ joinTokensAfter prev ks) : c = ' ' ∨ ∃ k ∈ ks, c ∈ k := by
  induction ks generalizing prev with
  | nil => cases h
  | cons k r ih =>
      rw [joinTokensAfter, List.mem_append, List.mem_append] at h
      rcases h with (h | h) | h
      · split at h
        · cases h
        · exact Or.inl (List.mem_singleton.mp h)
      · exact Or.inr ⟨k, List.mem_cons_self, h⟩
      · rcases ih h with h | ⟨l, hl, hc⟩
        · exact Or.inl h
        · exact Or.inr ⟨l, List.mem_cons_of_mem _ hl, hc⟩

/-- A type written from its tokens has its characters from them. -/
theorem mem_joinTokens {ks : List Text} {c : Char} (h : c ∈ joinTokens ks)
    (hc : isBlank c = false) : ∃ k ∈ ks, c ∈ k := by
  cases ks with
  | nil => cases h
  | cons k r =>
      have hmem : c ∈ k ++ joinTokensAfter k r := by
        have hsolid : c ∈ Text.solid (Text.trim (k ++ joinTokensAfter k r)) :=
          Text.mem_solid.mpr ⟨h, hc⟩
        rw [Text.solid_trim] at hsolid
        exact (Text.mem_solid.mp hsolid).1
      rcases List.mem_append.mp hmem with hmem | hmem
      · exact ⟨k, List.mem_cons_self, hmem⟩
      · rcases mem_joinTokensAfter hmem with rfl | ⟨l, hl, hmem⟩
        · exact absurd hc (by decide)
        · exact ⟨l, List.mem_cons_of_mem _ hl, hmem⟩

/-! ### Dividing a declaration -/

/-- Whether a token can be the name of a parameter. -/
def isNameToken (k : Text) : Bool :=
  !(isArrayBound k || isModifier k)

/-- The last name among some tokens is the name behind which there is no other. -/
theorem nameIndex?_append (left : List Text) {right : List Text} {n : Text}
    (hn : isNameToken n = true) (hright : ∀ k ∈ right, isNameToken k = false) :
    nameIndex? (left ++ n :: right) = some left.length := by
  have hback : (left ++ n :: right).reverse.findIdx? isNameToken = some right.length := by
    have hnone : right.reverse.findIdx? isNameToken = none :=
      List.findIdx?_eq_none_iff.mpr fun k hk => hright k (List.mem_reverse.mp hk)
    rw [List.reverse_append, List.reverse_cons, List.append_assoc, List.findIdx?_append, hnone]
    simp [List.findIdx?_cons, hn]
  change ((left ++ n :: right).reverse.findIdx? isNameToken).map _ = _
  rw [hback]
  simp only [Option.map_some, List.length_append, List.length_cons]
  congr 1
  omega

/-- Tokens without names have no last one. -/
theorem nameIndex?_eq_none {ks : List Text} (h : ∀ k ∈ ks, isNameToken k = false) :
    nameIndex? ks = none := by
  have hback : ks.reverse.findIdx? isNameToken = none :=
    List.findIdx?_eq_none_iff.mpr fun k hk => h k (List.mem_reverse.mp hk)
  change (ks.reverse.findIdx? isNameToken).map _ = _
  rw [hback]
  rfl

/-- The tokens of the type and the name that a row of tokens without bounds is divided into. -/
def divideTokens (ks : List Text) : List Text × Text :=
  match nameIndex? ks with
  | none | some 0 => (ks, [])
  | some (i + 1) =>
    let name := ks.getD (i + 1) []
    if builtinTypeWords.contains name || name.contains '<' then (ks, [])
    else (ks.eraseIdx (i + 1), name)

/-- The tokens of the type are among those of the declaration. -/
theorem divideTokens_fst_subset (ks : List Text) : (divideTokens ks).1 ⊆ ks := by
  unfold divideTokens
  split
  · exact List.Subset.refl ks
  · exact List.Subset.refl ks
  · dsimp only
    split
    · exact List.Subset.refl ks
    · exact (List.eraseIdx_sublist ks _).subset

/-- The token behind some others is at their number. -/
theorem getD_append_cons (left right : List Text) (n : Text) :
    (left ++ n :: right).getD left.length [] = n := by
  simp

/-- Taking it out leaves those before and behind it. -/
theorem eraseIdx_append_cons (left right : List Text) (n : Text) :
    (left ++ n :: right).eraseIdx left.length = left ++ right := by
  rw [List.eraseIdx_append_of_length_le (Nat.le_refl _), Nat.sub_self, List.eraseIdx_cons_zero]

/-- **A declaration is divided by its tokens without bounds**, if it does not end in a modifier. -/
theorem splitTypeAndName_eq_divideTokens {t : Text} (hne : declTokens t ≠ [])
    (hhead : ∀ k ∈ (declTokens t).head?, isArrayBound k = false)
    (hlast : endsInModifier t = false) :
    splitTypeAndName t = ⟨joinTokens (divideTokens (boundlessTokens t)).1,
      (divideTokens (boundlessTokens t)).2, hasBound t⟩ := by
  obtain ⟨last, hgetLast⟩ : ∃ last, (declTokens t).getLast? = some last :=
    ⟨_, List.getLast?_eq_some_getLast hne⟩
  have hmodifier : isModifier last = false := by
    rw [endsInModifier, hgetLast] at hlast
    exact hlast
  rw [splitTypeAndName]
  simp only [show typeTokens t.trim = declTokens t from rfl, hgetLast, hmodifier,
    Bool.false_eq_true, if_false]
  rw [show (declTokens t).any isArrayBound = hasBound t from rfl]
  rcases exists_last isNameToken (declTokens t) with hnone | ⟨left, n, right, htokens, hn, hright⟩
  · have hnone' : ∀ k ∈ boundlessTokens t, isNameToken k = false := fun k hk =>
      hnone k (List.mem_of_mem_filter hk)
    simp only [nameIndex?_eq_none hnone, divideTokens, nameIndex?_eq_none hnone']
    rfl
  · have hbound : isArrayBound n = false := by
      simp only [isNameToken, Bool.not_eq_true', Bool.or_eq_false_iff] at hn
      exact hn.1
    have hboundless : boundlessTokens t = left.filter (fun k => !isArrayBound k) ++
        n :: right.filter fun k => !isArrayBound k := by
      rw [boundlessTokens, htokens, List.filter_append, List.filter_cons_of_pos (by simp [hbound])]
    have hright' : ∀ k ∈ right.filter (fun k => !isArrayBound k), isNameToken k = false :=
      fun k hk => hright k (List.mem_of_mem_filter hk)
    have hindex := nameIndex?_append left hn hright
    have hindex' := nameIndex?_append (left.filter fun k => !isArrayBound k) hn hright'
    rw [← htokens] at hindex
    rw [← hboundless] at hindex'
    cases left with
    | nil =>
        simp only [hindex, List.length_nil, divideTokens, hindex', List.filter_nil]
        rfl
    | cons k left =>
        have hk : isArrayBound k = false := hhead k (by rw [htokens]; rfl)
        rw [List.filter_cons_of_pos (by simp [hk])] at hboundless hindex'
        rw [List.length_cons] at hindex hindex'
        have hname := getD_append_cons (k :: left) right n
        have herase := eraseIdx_append_cons (k :: left) right n
        have hname' := getD_append_cons (k :: left.filter fun k => !isArrayBound k)
          (right.filter fun k => !isArrayBound k) n
        have herase' := eraseIdx_append_cons (k :: left.filter fun k => !isArrayBound k)
          (right.filter fun k => !isArrayBound k) n
        rw [← htokens, List.length_cons] at hname herase
        rw [← hboundless, List.length_cons] at hname' herase'
        simp only [hindex, divideTokens, hindex', hname, hname', herase, herase']
        split
        · rfl
        · rw [List.filter_append, List.filter_cons_of_pos (by simp [hk])]

/-! ### What array bounds do -/

section

variable {t u : Text}

/-- A declaration with no token, or with a modifier at its end, is a type as it stands. -/
theorem splitTypeAndName_of_unnamed (h : declTokens t = [] ∨ endsInModifier t = true) :
    splitTypeAndName t = ⟨t.trim, [], false⟩ := by
  rw [splitTypeAndName]
  simp only [show typeTokens t.trim = declTokens t from rfl]
  cases hlast : (declTokens t).getLast? with
  | none => rfl
  | some last =>
      have hmodifier : isModifier last = true := by
        rcases h with hnil | hmodifier
        · rw [hnil] at hlast
          cases hlast
        · rw [endsInModifier, hlast] at hmodifier
          exact hmodifier
      simp only [hmodifier, if_true]

/-- A text ends with what is appended to it. -/
theorem endsWith_append (t s : Text) : Text.endsWith (t ++ s) s = true :=
  List.isSuffixOf_iff_suffix.mpr (List.suffix_append t s)

/-- **A base type ends in `[]` exactly if the declaration has a bound.** -/
theorem endsWith_baseType (ht : IsProper t) :
    (baseType (splitTypeAndName t).type (splitTypeAndName t).isArray).endsWith "[]" =
      hasBound t := by
  obtain ⟨hbrackets, hhead, hmodifier⟩ := ht
  have hnone : '[' ∉ (splitTypeAndName t).type →
      (baseType (splitTypeAndName t).type false).endsWith "[]" = false := by
    intro hmem
    by_contra hends
    rw [Bool.not_eq_false, Text.endsWith, List.isSuffixOf_iff_suffix] at hends
    exact hmem (mem_of_mem_baseType (by decide) (hends.subset List.mem_cons_self))
  have hbare : hasBound t = false → ∀ k ∈ declTokens t, '[' ∉ k := fun hbound k hk =>
    (hbrackets k hk).resolve_left (by simpa using List.any_eq_false.mp hbound k hk)
  by_cases hunnamed : declTokens t = [] ∨ endsInModifier t = true
  · have hbound : hasBound t = false := by
      rcases hunnamed with hnil | hends
      · rw [hasBound, hnil]
        rfl
      · exact hmodifier hends
    have hsplit := splitTypeAndName_of_unnamed hunnamed
    rw [hbound, hsplit]
    rw [hsplit] at hnone
    refine hnone fun hmem => ?_
    obtain ⟨k, hk, hin⟩ := (mem_iff_exists_token (by decide)).mp hmem
    exact hbare hbound k hk hin
  · rw [not_or, Bool.not_eq_true] at hunnamed
    have hsplit := splitTypeAndName_eq_divideTokens hunnamed.1 hhead hunnamed.2
    rw [hsplit] at hnone ⊢
    cases hbound : hasBound t with
    | true => exact endsWith_append _ _
    | false =>
        refine hnone fun hmem => ?_
        obtain ⟨k, hk, hin⟩ := mem_joinTokens hmem (by decide)
        exact hbare hbound k (List.mem_of_mem_filter (divideTokens_fst_subset _ hk)) hin

/-- **Bounds do not reach the key.** -/
theorem typeKey_eq_of_sameButBounds (ht : IsProper t) (hu : IsProper u) (h : SameButBounds t u) :
    typeKey (splitTypeAndName t).type = typeKey (splitTypeAndName u).type := by
  obtain ⟨htokens, hends⟩ := h
  have hnil : ∀ {t u}, IsProper u → boundlessTokens t = boundlessTokens u → declTokens t = [] →
      declTokens u = [] := by
    intro t u hu htokens ht
    cases hdecl : declTokens u with
    | nil => rfl
    | cons k r =>
        have hk : isArrayBound k = false := hu.2.1 k (by rw [hdecl]; rfl)
        rw [boundlessTokens, boundlessTokens, ht, hdecl,
          List.filter_cons_of_pos (by simp [hk])] at htokens
        cases htokens
  by_cases hempty : declTokens t = []
  · have hempty' := hnil hu htokens hempty
    rw [splitTypeAndName_of_unnamed (Or.inl hempty), splitTypeAndName_of_unnamed (Or.inl hempty')]
    exact typeKey_eq_of_typeTokens (hempty.trans hempty'.symm)
  by_cases hmodifier : endsInModifier t = true
  · -- With a modifier at its end, neither of the two has a bound at all.
    have hwhole : ∀ {t}, IsProper t → endsInModifier t = true →
        boundlessTokens t = declTokens t := fun {t} ht hends =>
      List.filter_eq_self.mpr fun k hk => by
        simpa using List.any_eq_false.mp (ht.2.2 hends) k hk
    have hmodifier' : endsInModifier u = true := hends ▸ hmodifier
    rw [splitTypeAndName_of_unnamed (Or.inr hmodifier),
      splitTypeAndName_of_unnamed (Or.inr hmodifier')]
    rw [hwhole ht hmodifier, hwhole hu hmodifier'] at htokens
    exact typeKey_eq_of_typeTokens htokens
  · rw [Bool.not_eq_true] at hmodifier
    have hempty' : declTokens u ≠ [] := fun hu' => hempty (hnil ht htokens.symm hu')
    rw [splitTypeAndName_eq_divideTokens hempty ht.2.1 hmodifier,
      splitTypeAndName_eq_divideTokens hempty' hu.2.1 (hends ▸ hmodifier), htokens]

end

/-- **Array parameters have no key of their own.** Let two parameters have proper declarations.
Whether the base type of one ends in `[]` says whether its declaration has an array bound, so the
two agree on it exactly if both have one or neither does. But if they differ in nothing but their
bounds they share a key all the same, and two methods that differ in this parameter alone are paired
as an exact match. -/
theorem key_ignores_bounds {b b' : ParameterBlock} (hb : IsProper b.declaration)
    (hb' : IsProper b'.declaration) :
    (b.parameter.baseType.endsWith "[]" = b'.parameter.baseType.endsWith "[]" ↔
      hasBound b.declaration = hasBound b'.declaration) ∧
    (SameButBounds b.declaration b'.declaration →
      b.parameter.key = b'.parameter.key ∧
      ∀ (m : Method) (before after : List Parameter),
        matchDeclaration [{ m with parameters := before ++ b.parameter :: after }]
          { m with parameters := before ++ b'.parameter :: after } = .exact 0) := by
  refine ⟨?_, fun hsame => ?_⟩
  · rw [b.parameter_baseType, b'.parameter_baseType, endsWith_baseType hb, endsWith_baseType hb']
  · have hkey : b.parameter.key = b'.parameter.key := by
      rw [b.parameter_key, b'.parameter_key]
      exact typeKey_eq_of_sameButBounds hb hb' hsame
    refine ⟨hkey, fun m before after => ?_⟩
    simp [matchDeclaration, Method.key, hkey]

/-- An array and a number share a key, and differ in their base types. -/
theorem key_ignores_bounds_int :
    (plainBlock "int a[3]").parameter.key = (plainBlock "int a").parameter.key ∧
    ¬ (plainBlock "int a[3]").parameter.baseType.endsWith "[]"
      = (plainBlock "int a").parameter.baseType.endsWith "[]" := by
  have harray : IsProper (plainBlock "int a[3]").declaration := by decide
  have hnumber : IsProper (plainBlock "int a").declaration := by decide
  obtain ⟨hagree, hkeys⟩ := key_ignores_bounds harray hnumber
  exact ⟨(hkeys (by decide)).1, fun h => absurd (hagree.mp h) (by decide)⟩

/-- So a key does not tell whether a parameter is an array. -/
theorem not_forall_key_isArray :
    ¬ ∀ (t u : Text) (p q : Parameter), p ∈ parseParameters t → q ∈ parseParameters u →
      p.key = q.key → p.baseType.endsWith "[]" = q.baseType.endsWith "[]" := by
  intro h
  have hp : (plainBlock "int a[3]").parameter ∈ parseParameters "int a[3]" := by decide +kernel
  have hq : (plainBlock "int a").parameter ∈ parseParameters "int a" := by decide +kernel
  have hends := h _ _ _ _ hp hq (by decide)
  revert hends
  decide

end Sharpen
