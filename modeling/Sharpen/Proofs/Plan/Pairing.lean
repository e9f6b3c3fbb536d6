import Sharpen.Plan.Reconcile

/-!
# Finding the Declaration of an Implementation

Pairing works on the candidates among the methods of a type, and its result points back into the
whole list of methods. Here the candidates are taken out of the picture again.

As one search over all methods, pairing has a result that can be compared with other searches: with
that for the first that fits, with that for the only one of the name, and with itself after a
declaration has been completed. Interfaces come in when no candidate of the owner has the name, and
then only their static methods do. Overloads that differ in a trailing `const` have the same keys
and are told apart by nothing.

## Main definitions

* `isNamesake` — whether a method is a candidate with the name of an implementation.
* `isExact` — whether a method is a candidate with the name and the parameter keys of an
  implementation.
* `candidatesFrom` — the candidates among methods, with their indices in the whole list, whose first
  one is `n`.
* `Method.Fits` — a declaration has the name and the parameter keys of an implementation.

## Main results

* `matchAmong_eq` — pairing as one search over the whole list: the first candidate with name and
  keys, else the only candidate with the name.
* `findDeclaration_index` — where a declaration that was found can be: with the owner itself, or, if
  no candidate of the owner has the name, with an interface that the owner lists as a base.
* `exists_matchDeclaration_eq_exact` — overloads that differ in a trailing `const` alone fit equally
  well: the first one is taken.
* `matchAmong_eq_nameOnly_iff` — a pairing by name alone: no candidate has name and keys, and one
  and only one has the name.
* `matchDeclaration_eq_exact_iff` — an exact pairing is one with the first candidate that fits.
* `not_forall_matchDeclaration_isConst` — the other order pairs them wrongly: not every
  implementation that some candidate fits in name, keys and `const` is paired with such a candidate.
-/

namespace Sharpen

/-! ### Pairing within one list of methods -/

/-- Whether a method is a candidate with the name of an implementation. -/
def isNamesake (isCandidate : Method → Bool) (impl m : Method) : Bool :=
  isCandidate m && m.name == impl.name

/-- Whether a method is a candidate with the name and the parameter keys of an implementation. -/
def isExact (isCandidate : Method → Bool) (impl m : Method) : Bool :=
  isCandidate m && (m.name == impl.name && m.key == impl.key)

/-- The candidates among methods, with their indices in the whole list, whose first one is `n`. -/
def candidatesFrom (isCandidate : Method → Bool) (methods : List Method) (n : Nat) :
    List (Method × Nat) :=
  (methods.zipIdx n).filter fun p => isCandidate p.1

/-- A first method that is a candidate is the first candidate. -/
theorem candidatesFrom_cons (isCandidate : Method → Bool) (m : Method) (r : List Method) (n : Nat) :
    candidatesFrom isCandidate (m :: r) n
      = if isCandidate m then (m, n) :: candidatesFrom isCandidate r (n + 1)
        else candidatesFrom isCandidate r (n + 1) := by
  simp only [candidatesFrom, List.zipIdx_cons, List.filter_cons]

/-- Searching the candidates and pointing back into the whole list is searching the whole list for a
candidate. -/
theorem findIdx?_candidatesFrom (isCandidate q : Method → Bool) (methods : List Method) (n : Nat) :
    (((candidatesFrom isCandidate methods n).map Prod.fst).findIdx? q).map
        (fun i => (((candidatesFrom isCandidate methods n)[i]?).map Prod.snd).getD 0)
      = (methods.findIdx? fun m => isCandidate m && q m).map (· + n) := by
  induction methods generalizing n with
  | nil => rfl
  | cons m r ih =>
      have hshift : (fun i => i + 1 + n) = fun i => i + (n + 1) := by funext i; omega
      have hr := ih (n + 1)
      rw [candidatesFrom_cons, List.findIdx?_cons]
      by_cases hm : isCandidate m = true
      · by_cases hq : q m = true
        · simp [hm, hq, List.findIdx?_cons]
        · simp only [hm, hq, List.map_cons, List.findIdx?_cons, if_true, Bool.true_and,
            Bool.false_eq_true, if_false, Option.map_map, Function.comp_def,
            List.getElem?_cons_succ, hshift]
          exact hr
      · simp only [hm, Bool.false_and, Bool.false_eq_true, if_false, Option.map_map,
          Function.comp_def, hshift]
        exact hr

/-- The candidates with the name are counted in the whole list. -/
theorem countP_candidatesFrom (isCandidate : Method → Bool) (impl : Method) (methods : List Method)
    (n : Nat) :
    ((candidatesFrom isCandidate methods n).map Prod.fst).countP (fun c => c.name == impl.name)
      = methods.countP (isNamesake isCandidate impl) := by
  induction methods generalizing n with
  | nil => rfl
  | cons m r ih =>
      rw [candidatesFrom_cons, List.countP_cons, ← ih (n + 1)]
      by_cases hm : isCandidate m = true <;> simp [hm, isNamesake, List.countP_cons]

/-- **Pairing as one search**: the first candidate with name and keys, else the candidate with the
name if there is only one. -/
theorem matchAmong_eq (methods : List Method) (isCandidate : Method → Bool) (impl : Method) :
    matchAmong methods isCandidate impl =
      match methods.findIdx? (isExact isCandidate impl) with
      | some j => .exact j
      | none =>
        match methods.findIdx? (isNamesake isCandidate impl) with
        | none => .absent
        | some j =>
          if methods.countP (isNamesake isCandidate impl) == 1 then .nameOnly j
          else .ambiguous := by
  have hexact := findIdx?_candidatesFrom isCandidate
    (fun c => c.name == impl.name && c.key == impl.key) methods 0
  have hname := findIdx?_candidatesFrom isCandidate (fun c => c.name == impl.name) methods 0
  simp only [Nat.add_zero, Option.map_id'] at hexact hname
  change _ = methods.findIdx? (isExact isCandidate impl) at hexact
  change _ = methods.findIdx? (isNamesake isCandidate impl) at hname
  rw [← hexact, ← hname, ← countP_candidatesFrom isCandidate impl methods 0]
  change (matchDeclaration ((candidatesFrom isCandidate methods 0).map Prod.fst) impl).reindex
    (fun i => (((candidatesFrom isCandidate methods 0)[i]?).map Prod.snd).getD 0) = _
  generalize candidatesFrom isCandidate methods 0 = candidates
  rw [matchDeclaration]
  cases (candidates.map Prod.fst).findIdx? fun c => c.name == impl.name && c.key == impl.key with
  | some i => rfl
  | none =>
      cases (candidates.map Prod.fst).findIdx? fun c => c.name == impl.name with
      | none => rfl
      | some i =>
          simp only [Option.map_some, Option.map_none]
          split <;> rfl

/-- What the search finds is a candidate with the name. -/
theorem matchAmong_index {methods : List Method} {isCandidate : Method → Bool} {impl : Method}
    {j : Nat} (h : (matchAmong methods isCandidate impl).index? = some j) :
    ∃ m, methods[j]? = some m ∧ isCandidate m = true ∧ m.name = impl.name := by
  have hfound : ∀ q : Method → Bool, methods.findIdx? q = some j →
      (∀ m, q m = true → isCandidate m = true ∧ m.name = impl.name) →
      ∃ m, methods[j]? = some m ∧ isCandidate m = true ∧ m.name = impl.name := by
    intro q hq himp
    obtain ⟨hlt, hsat, -⟩ := List.findIdx?_eq_some_iff_getElem.mp hq
    exact ⟨methods[j], List.getElem?_eq_getElem hlt, himp _ hsat⟩
  rw [matchAmong_eq] at h
  cases hexact : methods.findIdx? (isExact isCandidate impl) with
  | some i =>
      rw [hexact] at h
      obtain rfl : i = j := by simpa [Pairing.index?] using h
      refine hfound _ hexact fun m hm => ?_
      simp only [isExact, Bool.and_eq_true, beq_iff_eq] at hm
      exact ⟨hm.1, hm.2.1⟩
  | none =>
      cases hname : methods.findIdx? (isNamesake isCandidate impl) with
      | none => simp [hexact, hname, Pairing.index?] at h
      | some i =>
          simp only [hexact, hname] at h
          split at h
          · obtain rfl : i = j := by simpa [Pairing.index?] using h
            refine hfound _ hname fun m hm => ?_
            simpa [isNamesake] using hm
          · simp [Pairing.index?] at h

/-- Exactly one element satisfies `q` iff one does and all that do stand at its index. -/
theorem countP_eq_one_iff {q : Method → Bool} {methods : List Method} :
    methods.countP q = 1 ↔
      ∃ (j : Nat) (m : Method), methods[j]? = some m ∧ q m = true ∧
        ∀ i k, methods[i]? = some k → q k = true → i = j := by
  induction methods with
  | nil => simp
  | cons a r ih =>
      rw [List.countP_cons]
      by_cases ha : q a = true
      · have hrest : r.countP q = 0 ↔ ∀ (i : Nat) k, r[i]? = some k → q k ≠ true := by
          rw [List.countP_eq_zero]
          exact ⟨fun h i k hk => h k (List.mem_of_getElem? hk), fun h k hk => by
            obtain ⟨i, hi⟩ := List.mem_iff_getElem?.mp hk
            exact h i k hi⟩
        rw [if_pos ha, Nat.add_eq_right, hrest]
        constructor
        · refine fun h => ⟨0, a, rfl, ha, fun i k hk hq => ?_⟩
          cases i with
          | zero => rfl
          | succ i => exact absurd hq (h i k hk)
        · rintro ⟨j, m, -, -, hunique⟩ i k hk hq
          have hfirst := hunique 0 a rfl ha
          have hlater := hunique (i + 1) k hk hq
          omega
      · rw [if_neg ha, Nat.add_zero, ih]
        constructor
        · rintro ⟨j, m, hm, hq, hunique⟩
          refine ⟨j + 1, m, hm, hq, fun i k hk hqk => ?_⟩
          cases i with
          | zero => exact absurd (Option.some.inj hk ▸ hqk) ha
          | succ i => exact congrArg (· + 1) (hunique i k hk hqk)
        · rintro ⟨j, m, hm, hq, hunique⟩
          cases j with
          | zero => exact absurd (Option.some.inj hm ▸ hq) ha
          | succ j =>
              exact ⟨j, m, hm, hq, fun i k hk hqk => Nat.succ.inj (hunique (i + 1) k hk hqk)⟩

/-- The exact pairing points to a candidate with name and keys. -/
theorem matchAmong_eq_exact {methods : List Method} {isCandidate : Method → Bool} {impl : Method}
    {j : Nat} (h : matchAmong methods isCandidate impl = .exact j) :
    ∃ m, methods[j]? = some m ∧ isExact isCandidate impl m = true := by
  rw [matchAmong_eq] at h
  cases hexact : methods.findIdx? (isExact isCandidate impl) with
  | some i =>
      obtain rfl : i = j := by simpa [hexact] using h
      obtain ⟨hlt, hsat, -⟩ := List.findIdx?_eq_some_iff_getElem.mp hexact
      exact ⟨_, List.getElem?_eq_getElem hlt, hsat⟩
  | none =>
      simp only [hexact] at h
      split at h
      · cases h
      · split at h <;> cases h

/-- Some candidate with name and keys is found if there is one. -/
theorem exists_matchAmong_eq_exact {methods : List Method} {isCandidate : Method → Bool}
    {impl m : Method} (hm : m ∈ methods) (hexact : isExact isCandidate impl m = true) :
    ∃ j, matchAmong methods isCandidate impl = .exact j := by
  rw [matchAmong_eq]
  cases hfind : methods.findIdx? (isExact isCandidate impl) with
  | some j => exact ⟨j, rfl⟩
  | none => exact absurd hexact (by simpa using List.findIdx?_eq_none_iff.mp hfind m hm)

/-- No declaration is found if no candidate has the name. -/
theorem isNamesake_of_matchAmong_eq_absent {methods : List Method} {isCandidate : Method → Bool}
    {impl : Method} (h : matchAmong methods isCandidate impl = .absent) :
    ∀ m ∈ methods, isNamesake isCandidate impl m = false := by
  rw [matchAmong_eq] at h
  split at h
  · cases h
  · split at h
    · rename_i hnone
      exact List.findIdx?_eq_none_iff.mp hnone
    · split at h <;> cases h

/-- **A pairing by name alone**: no candidate has name and keys, and one and only one has the
name. -/
theorem matchAmong_eq_nameOnly_iff {methods : List Method} {isCandidate : Method → Bool}
    {impl : Method} {j : Nat} :
    matchAmong methods isCandidate impl = .nameOnly j ↔
      (∀ m ∈ methods, isExact isCandidate impl m = false) ∧
      (∃ m, methods[j]? = some m ∧ isNamesake isCandidate impl m = true) ∧
      ∀ i k, methods[i]? = some k → isNamesake isCandidate impl k = true → i = j := by
  rw [matchAmong_eq]
  cases hexact : methods.findIdx? (isExact isCandidate impl) with
  | some i =>
      obtain ⟨hlt, hsat, -⟩ := List.findIdx?_eq_some_iff_getElem.mp hexact
      refine ⟨fun h => Pairing.noConfusion h, fun ⟨hnone, _⟩ => ?_⟩
      simp [hnone _ (List.getElem_mem hlt)] at hsat
  | none =>
      have hnone := List.findIdx?_eq_none_iff.mp hexact
      cases hname : methods.findIdx? (isNamesake isCandidate impl) with
      | none =>
          refine ⟨fun h => Pairing.noConfusion h, fun ⟨_, ⟨m, hm, hsat⟩, _⟩ => ?_⟩
          simp [List.findIdx?_eq_none_iff.mp hname m (List.mem_of_getElem? hm)] at hsat
      | some i =>
          obtain ⟨hlt, hsat, -⟩ := List.findIdx?_eq_some_iff_getElem.mp hname
          have hi := List.getElem?_eq_getElem hlt
          dsimp only
          constructor
          · intro h
            split at h
            · rename_i hcount
              obtain ⟨u, -, -, -, hunique⟩ := countP_eq_one_iff.mp (beq_iff_eq.mp hcount)
              obtain rfl := Pairing.nameOnly.inj h
              refine ⟨hnone, ⟨_, hi, hsat⟩, fun k m hm hk => ?_⟩
              exact (hunique k m hm hk).trans (hunique i _ hi hsat).symm
            · cases h
          · rintro ⟨-, ⟨m, hm, hq⟩, hunique⟩
            obtain rfl := hunique i _ hi hsat
            rw [if_pos (beq_iff_eq.mpr (countP_eq_one_iff.mpr ⟨i, m, hm, hq, hunique⟩))]

/-! ### Pairing with the owner and its interfaces -/

/-- A declaration that is found among interfaces is a static method that waits for a body, of an
interface in the list. A base that gives nothing leaves the search to the bases behind it. -/
theorem matchBases_index {registry : Registry} {types : List TypeDecl} {impl : Method}
    {bases : List Text} {found : Pairing × Nat} {p : Pairing} {i j : Nat}
    (hfound : found.1.index? = none) (h : matchBases registry types impl bases found = (p, i))
    (hp : p.index? = some j) :
    ∃ base ∈ bases, ∃ d, registry.find? base = some i ∧ types[i]? = some d ∧
      d.isInterface = true ∧ matchAmong d.methods awaitsStaticBody impl = p := by
  induction bases generalizing found with
  | nil =>
      rw [matchBases] at h
      rw [h, hp] at hfound
      cases hfound
  | cons base r ih =>
      have hbehind : ∀ found : Pairing × Nat, found.1.index? = none →
          matchBases registry types impl r found = (p, i) →
          ∃ b ∈ base :: r, ∃ d, registry.find? b = some i ∧ types[i]? = some d ∧
            d.isInterface = true ∧ matchAmong d.methods awaitsStaticBody impl = p := by
        intro found hfound h
        obtain ⟨b, hb, hrest⟩ := ih hfound h
        exact ⟨b, List.mem_cons_of_mem _ hb, hrest⟩
      rw [matchBases] at h
      cases hplace : registry.find? base with
      | none => exact hbehind found hfound (by simpa [hplace] using h)
      | some k =>
          cases htype : types[k]? with
          | none => exact hbehind found hfound (by simpa [hplace, htype] using h)
          | some d =>
              simp only [hplace, htype] at h
              split at h
              · exact hbehind found hfound h
              · rename_i hinterface
                split at h
                · obtain ⟨rfl, rfl⟩ := Prod.mk.injEq _ _ _ _ ▸ h
                  exact ⟨base, List.mem_cons_self, d, hplace, htype, by simpa using hinterface, rfl⟩
                · rename_i hnone
                  exact hbehind _ (by simpa using hnone) h

/-- **Where a declaration is found**: with the owner, among the methods that wait for a body, or, if
none of these has the name, with an interface that the owner lists as a base, among its static
methods that wait for one. -/
theorem findDeclaration_index {registry : Registry} {types : List TypeDecl} {owner : Nat}
    {impl : Method} {p : Pairing} {i j : Nat}
    (h : findDeclaration registry types owner impl = (p, i)) (hp : p.index? = some j) :
    ∃ o, types[owner]? = some o ∧
      ((i = owner ∧ matchAmong o.methods awaitsBody impl = p) ∨
        matchAmong o.methods awaitsBody impl = .absent ∧
        ∃ base ∈ o.bases, ∃ d, registry.find? base = some i ∧ types[i]? = some d ∧
          d.isInterface = true ∧ matchAmong d.methods awaitsStaticBody impl = p) := by
  rw [findDeclaration] at h
  cases howner : types[owner]? with
  | none =>
      simp only [howner, Prod.mk.injEq] at h
      obtain ⟨rfl, -⟩ := h
      cases hp
  | some o =>
      refine ⟨o, rfl, ?_⟩
      simp only [howner] at h
      split at h
      · rename_i habsent
        exact Or.inr ⟨habsent, matchBases_index rfl h hp⟩
      · obtain ⟨rfl, rfl⟩ := Prod.mk.injEq _ _ _ _ ▸ h
        exact Or.inl ⟨rfl, rfl⟩

/-- What is found among the methods of the owner that wait for a body is preferred. -/
theorem findDeclaration_of_index {registry : Registry} {types : List TypeDecl} {owner j : Nat}
    {impl : Method} {o : TypeDecl} {p : Pairing} (howner : types[owner]? = some o)
    (hmatch : matchAmong o.methods awaitsBody impl = p) (hp : p.index? = some j) :
    findDeclaration registry types owner impl = (p, owner) := by
  rw [findDeclaration, howner]
  simp only [hmatch]
  cases p with
  | exact i => rfl
  | nameOnly i => rfl
  | ambiguous => cases hp
  | absent => cases hp

/-! ### Overloads that differ in `const` alone -/

/-- A declaration has the name and the parameter keys of an implementation. -/
structure Method.Fits (c impl : Method) : Prop where
  name : c.name = impl.name
  key : c.key = impl.key

/-- **An exact pairing** is one with the first candidate that fits. -/
theorem matchDeclaration_eq_exact_iff {candidates : List Method} {impl : Method} {i : Nat} :
    matchDeclaration candidates impl = .exact i ↔
      (∃ d, candidates[i]? = some d ∧ d.Fits impl) ∧
        ∀ j < i, ∀ e, candidates[j]? = some e → ¬ e.Fits impl := by
  have hfits : ∀ c : Method, (c.name == impl.name && c.key == impl.key) = true ↔ c.Fits impl := by
    intro c
    rw [Bool.and_eq_true, beq_iff_eq, beq_iff_eq]
    exact ⟨fun h => ⟨h.1, h.2⟩, fun h => ⟨h.name, h.key⟩⟩
  have hfind : matchDeclaration candidates impl = .exact i ↔
      candidates.findIdx? (fun c => c.name == impl.name && c.key == impl.key) = some i := by
    rw [matchDeclaration]
    split
    · rename_i j hj
      rw [hj, Pairing.exact.injEq, Option.some.injEq]
    · rename_i hnone
      rw [hnone]
      refine ⟨fun h => ?_, fun h => nomatch h⟩
      split at h
      · cases h
      · split at h <;> cases h
  rw [hfind, List.findIdx?_eq_some_iff_getElem]
  constructor
  · rintro ⟨hlt, hsat, hbefore⟩
    refine ⟨⟨candidates[i], List.getElem?_eq_getElem hlt, (hfits _).mp hsat⟩, ?_⟩
    intro j hj e he hfit
    obtain ⟨hjlt, rfl⟩ := List.getElem?_eq_some_iff.mp he
    exact hbefore j hj ((hfits _).mpr hfit)
  · rintro ⟨⟨d, hd, hfit⟩, hbefore⟩
    obtain ⟨hlt, rfl⟩ := List.getElem?_eq_some_iff.mp hd
    refine ⟨hlt, (hfits _).mpr hfit, fun j hj hsat => ?_⟩
    have hjlt : j < candidates.length := by omega
    exact hbefore j hj candidates[j] (List.getElem?_eq_getElem hjlt) ((hfits _).mp hsat)

/-- Some candidate that fits is found if there is one. -/
theorem exists_exact_of_fits {candidates : List Method} {impl c : Method} (hc : c ∈ candidates)
    (hfit : c.Fits impl) : ∃ i, matchDeclaration candidates impl = .exact i := by
  rw [matchDeclaration]
  split
  · exact ⟨_, rfl⟩
  · rename_i hnone
    have hmiss := List.findIdx?_eq_none_iff.mp hnone c hc
    simp [hfit.name, hfit.key] at hmiss

/-- **The first declaration that fits is taken**, whatever `const` says: where a candidate has the
name and the parameter keys of an implementation, the pairing is exact, with the first such
candidate. It agrees with the implementation in its trailing `const` exactly when every candidate
that fits and does not agree stands behind one that fits and does. -/
theorem exists_matchDeclaration_eq_exact {candidates : List Method} {impl c : Method}
    (hc : c ∈ candidates) (hfit : c.Fits impl) :
    ∃ i d, matchDeclaration candidates impl = .exact i ∧ candidates[i]? = some d ∧ d.Fits impl ∧
      (∀ j < i, ∀ e, candidates[j]? = some e → ¬ e.Fits impl) ∧
      (d.isConst = impl.isConst ↔
        ∀ (j : Nat) (e : Method), candidates[j]? = some e → e.Fits impl →
          e.isConst ≠ impl.isConst →
          ∃ k < j, ∃ f, candidates[k]? = some f ∧ f.Fits impl ∧ f.isConst = impl.isConst) := by
  obtain ⟨i, hpair⟩ := exists_exact_of_fits hc hfit
  obtain ⟨⟨d, hd, hdfit⟩, hfirst⟩ := matchDeclaration_eq_exact_iff.mp hpair
  refine ⟨i, d, hpair, hd, hdfit, hfirst, ?_, ?_⟩
  · intro hagree j e he hefit hne
    have hij : i ≠ j := by
      rintro rfl
      obtain rfl := Option.some.inj (hd.symm.trans he)
      exact hne hagree
    have hle : ¬ j < i := fun hlt => hfirst j hlt e he hefit
    exact ⟨i, by omega, d, hd, hdfit, hagree⟩
  · intro hbehind
    refine Decidable.byContradiction fun hne => ?_
    obtain ⟨k, hlt, f, hf, hffit, -⟩ := hbehind i d hd hdfit hne
    exact hfirst k hlt f hf hffit

/-- The declaration of an element access, with or without `const` behind it. -/
def accessDecl (isConst : Bool) : Method :=
  { name := "at"
    returnType := "int"
    parameters := [{ baseType := "int", name := "i", key := "int" }]
    isConst := isConst
    owner := "Grid" }

/-- With the overload without `const` first, its implementation is paired with it. -/
theorem matchDeclaration_accessDecl :
    (accessDecl false).Fits (accessDecl false) ∧
      ∃ i d, matchDeclaration [accessDecl false, accessDecl true] (accessDecl false) = .exact i ∧
        [accessDecl false, accessDecl true][i]? = some d ∧ d.isConst = false := by
  have hmem : accessDecl false ∈ [accessDecl false, accessDecl true] := List.mem_cons_self
  have hfits : (accessDecl false).Fits (accessDecl false) := ⟨rfl, rfl⟩
  refine ⟨hfits, ?_⟩
  obtain ⟨i, d, hpair, hd, -, -, hagree⟩ := exists_matchDeclaration_eq_exact hmem hfits
  refine ⟨i, d, hpair, hd, hagree.mpr fun j e he _ hne => ?_⟩
  match j with
  | 0 =>
      obtain rfl := Option.some.inj he
      exact absurd rfl hne
  | j + 1 => exact ⟨0, j.succ_pos, accessDecl false, rfl, ⟨rfl, rfl⟩, rfl⟩

/-- **The other order pairs them wrongly**: not every implementation that some candidate fits in
name, keys and `const` is paired with such a candidate. -/
theorem not_forall_matchDeclaration_isConst :
    ¬ ∀ (candidates : List Method) (impl : Method),
      (∃ c ∈ candidates, c.Fits impl ∧ c.isConst = impl.isConst) →
      ∃ i d, matchDeclaration candidates impl = .exact i ∧ candidates[i]? = some d ∧
        d.Fits impl ∧ d.isConst = impl.isConst := by
  intro hall
  obtain ⟨i, d, hpair, hd, -, hagree⟩ := hall [accessDecl true, accessDecl false]
    (accessDecl false) ⟨accessDecl false, by simp, ⟨rfl, rfl⟩, rfl⟩
  have hfound : matchDeclaration [accessDecl true, accessDecl false] (accessDecl false)
      = .exact 0 := by decide
  obtain rfl : 0 = i := Pairing.exact.inj (hfound.symm.trans hpair)
  obtain rfl := Option.some.inj hd
  cases hagree

end Sharpen
