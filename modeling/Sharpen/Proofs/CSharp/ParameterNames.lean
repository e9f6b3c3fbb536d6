import Mathlib.Data.List.Basic
import Sharpen.CSharp.Interface
import Sharpen.Proofs.Plan.Declared

/-!
# The Names of Written Parameters

The name of a written parameter has one of four origins: the implementation, the declaration where
the implementation gives none, the place of the parameter where neither does, and the name of the
interface for the instance that an extension method extends. They are put together place by place,
and nothing compares them. This module says which names meet and that no others do.

The names of a signature are looked at as a list, with the empty text where none is given. Printing
fills the empty places with the names of the places, and merging fills those of the implementation
with the names of the declaration. Both are the same operation on lists, so that one lemma on
filling says when the result has no name twice. The instance of an extension method is one more name
in front.

## Main definitions

* `Parameter.printedName` — the name that is written; `parameterText_eq` says where.
* `Parameter.beforeName` — what is written in front of the name.
* `Parameter.afterName` — what is written behind the name.
* `printedNames` — the names that are written for some parameters.
* `nameAt` — the name that is given at place `k`, empty if none is.

## Main results

* `printedNames_nodup_iff` — the names of a signature are distinct if those that were given are, and
  none of them is the name of a place without one.
* `distinctNames_mergeParameters_iff` — a merge keeps given names distinct, unless the
  implementation uses a name of the declaration at another place and leaves the place of the
  declaration unnamed.
* `extensionLines_eq` — the signature of an extension method, with the instance in front.
* `emittedNames_nodup_iff` — all of it together.
-/

namespace Sharpen

/-! ### Printed names -/

/-- The name of the place `k`, for a parameter without a name. -/
def placeName (k : Nat) : Text :=
  "arg" ++ Text.ofNat k

/-- The name that is written for the parameter at place `k`. -/
def Parameter.printedName (p : Parameter) (k : Nat) : Text :=
  if p.name.isEmpty then placeName k else p.name

/-- What is written in front of the name. -/
def Parameter.beforeName (types : TypeMap) (p : Parameter) : Text :=
  let modifier : Text :=
    if p.isPointer && !p.isConst then "out "
    else if p.isReference && !p.isConst then "ref "
    else []
  modifier ++ types.mapType p.baseType ++ " "

/-- What is written behind the name. -/
def Parameter.afterName (p : Parameter) : Text :=
  match p.default? with
  | none | some [] => []
  | some value => " = " ++ convertValue value

/-- **A parameter is written with its printed name**, and neither what precedes nor what follows it
depends on a name. -/
theorem parameterText_eq (types : TypeMap) (p : Parameter) (k : Nat) :
    parameterText types p k = p.beforeName types ++ p.printedName k ++ p.afterName := rfl

/-- The names that are written for some parameters. -/
def printedNames (ps : List Parameter) : List Text :=
  ps.mapIdx fun k p => p.printedName k

/-- The name that is given at place `k`, empty if none is. -/
def nameAt (ps : List Parameter) (k : Nat) : Text :=
  (ps[k]?.map Parameter.name).getD []

/-- The names that are given are distinct. -/
def DistinctNames (ps : List Parameter) : Prop :=
  ((ps.map Parameter.name).filter fun n => !n.isEmpty).Nodup

instance : DecidablePred DistinctNames :=
  fun _ => inferInstanceAs (Decidable (List.Nodup _))

/-- No name that is given is the name of a place without one. -/
def AvoidsPlaceNames (ps : List Parameter) : Prop :=
  ∀ k < ps.length, nameAt ps k = [] → ∀ p ∈ ps, p.name ≠ placeName k

/-- Different places have different names. -/
theorem placeName_injective {i k : Nat} (h : placeName i = placeName k) : i = k := by
  have hdigits : Nat.toDigits 10 i = Nat.toDigits 10 k := List.append_cancel_left h
  rw [← Nat.ofDigitChars_ten_toDigits (n := i), hdigits, Nat.ofDigitChars_ten_toDigits]

/-- The name of a place is not empty. -/
theorem placeName_ne_nil (k : Nat) : placeName k ≠ [] :=
  List.cons_ne_nil _ _

section

variable {ps : List Parameter} {k : Nat}

/-- A name is there only where a parameter is. -/
theorem lt_length_of_nameAt_ne_nil (h : nameAt ps k ≠ []) : k < ps.length := by
  by_contra hle
  exact h (by simp [nameAt, List.getElem?_eq_none (Nat.le_of_not_lt hle)])

/-- Where a parameter is, its name is the name there. -/
theorem nameAt_of_lt (hk : k < ps.length) : nameAt ps k = ps[k].name := by
  simp [nameAt, List.getElem?_eq_getElem hk]

/-- Distinct names stand at distinct places. -/
theorem distinctNames_iff :
    DistinctNames ps ↔ ∀ i j, nameAt ps i ≠ [] → nameAt ps i = nameAt ps j → i = j := by
  rw [DistinctNames, List.Nodup, List.pairwise_filter, List.pairwise_map, List.pairwise_iff_getElem]
  simp only [Bool.not_eq_true', List.isEmpty_eq_false_iff]
  constructor
  · intro h i j hi heq
    have hlt := lt_length_of_nameAt_ne_nil hi
    have hlt' := lt_length_of_nameAt_ne_nil (heq ▸ hi)
    have hj : nameAt ps j ≠ [] := heq ▸ hi
    rw [nameAt_of_lt hlt] at hi heq
    rw [nameAt_of_lt hlt'] at heq hj
    rcases Nat.lt_trichotomy i j with hij | hij | hij
    · exact absurd heq (h i j hlt hlt' hij hi hj)
    · exact hij
    · exact absurd heq.symm (h j i hlt' hlt hij hj hi)
  · intro h i j hlt hlt' hij hi _ heq
    rw [← nameAt_of_lt hlt] at hi heq
    exact Nat.ne_of_lt hij (h i j hi (heq.trans (nameAt_of_lt hlt').symm))

/-- No name is that of a place without a name, said of places instead of parameters. -/
theorem avoidsPlaceNames_iff :
    AvoidsPlaceNames ps ↔
      ∀ i k, k < ps.length → nameAt ps k = [] → nameAt ps i ≠ placeName k := by
  constructor
  · intro h i k hk hunnamed heq
    have hlt := lt_length_of_nameAt_ne_nil (heq ▸ placeName_ne_nil k)
    exact h k hk hunnamed _ (List.getElem_mem hlt) ((nameAt_of_lt hlt).symm.trans heq)
  · intro h k hk hunnamed p hp
    obtain ⟨i, hi, rfl⟩ := List.getElem_of_mem hp
    exact nameAt_of_lt hi ▸ h i k hk hunnamed

/-- The name that is printed at a place is the one there, or that of the place if there is none. -/
theorem getElem_printedNames (hk : k < (printedNames ps).length) :
    (printedNames ps)[k] = if nameAt ps k = [] then placeName k else nameAt ps k := by
  have hlt : k < ps.length := by simpa [printedNames] using hk
  simp only [printedNames, List.getElem_mapIdx, Parameter.printedName, List.isEmpty_iff, nameAt,
    List.getElem?_eq_getElem hlt, Option.map_some, Option.getD_some]

/-- **When the names of a signature are distinct**: the given ones are, and they avoid the
others. -/
theorem printedNames_nodup_iff :
    (printedNames ps).Nodup ↔ DistinctNames ps ∧ AvoidsPlaceNames ps := by
  have hlength : (printedNames ps).length = ps.length := List.length_mapIdx
  rw [distinctNames_iff, avoidsPlaceNames_iff]
  constructor
  · intro hnodup
    refine ⟨fun i j hi heq => ?_, fun i k hk hunnamed heq => ?_⟩
    · have hj : nameAt ps j ≠ [] := heq ▸ hi
      have hlti : i < (printedNames ps).length := hlength ▸ lt_length_of_nameAt_ne_nil hi
      have hltj : j < (printedNames ps).length := hlength ▸ lt_length_of_nameAt_ne_nil hj
      have hprinted : (printedNames ps)[i] = (printedNames ps)[j] := by
        rw [getElem_printedNames, getElem_printedNames, if_neg hi, if_neg hj, heq]
      exact hnodup.getElem_inj_iff.mp hprinted
    · have hi : nameAt ps i ≠ [] := heq ▸ placeName_ne_nil k
      have hlti : i < (printedNames ps).length := hlength ▸ lt_length_of_nameAt_ne_nil hi
      have hltk : k < (printedNames ps).length := hlength ▸ hk
      have hprinted : (printedNames ps)[i] = (printedNames ps)[k] := by
        rw [getElem_printedNames, getElem_printedNames, if_neg hi, if_pos hunnamed, heq]
      exact hi (hnodup.getElem_inj_iff.mp hprinted ▸ hunnamed)
  · rintro ⟨hdistinct, havoids⟩
    rw [List.nodup_iff_injective_getElem]
    rintro ⟨i, hi⟩ ⟨j, hj⟩ heq
    simp only [getElem_printedNames] at heq
    rw [Fin.mk.injEq]
    split at heq
    · rename_i hnamei
      split at heq
      · exact placeName_injective heq
      · exact absurd heq.symm (havoids j i (hlength ▸ hi) hnamei)
    · rename_i hnamei
      split at heq
      · rename_i hnamej
        exact absurd heq (havoids i j (hlength ▸ hj) hnamej)
      · exact hdistinct i j hnamei heq

end

/-! ### Merged names -/

section

variable {ds is : List Parameter}

/-- The name after a merge: that of the implementation, else that of the declaration. -/
theorem nameAt_mergeParameters (ds is : List Parameter) (k : Nat) :
    nameAt (mergeParameters ds is) k = if nameAt is k = [] then nameAt ds k else nameAt is k := by
  rw [nameAt, getElem?_mergeParameters]
  cases hd : ds[k]? <;> cases hi : is[k]? <;>
    simp [nameAt, hd, hi, Parameter.merge, nonemptyOr, List.isEmpty_iff]

/-- The implementation does not use a name that the merge keeps from the declaration, which it does
where the implementation has none. -/
def AvoidsKeptNames (ds is : List Parameter) : Prop :=
  ∀ k < ds.length, nameAt ds k ≠ [] → nameAt is k = [] → ∀ p ∈ is, p.name ≠ nameAt ds k

/-- No name that is filled in is one that is kept, said of places. -/
theorem avoidsKeptNames_iff :
    AvoidsKeptNames ds is ↔
      ∀ i k, nameAt ds k ≠ [] → nameAt is k = [] → nameAt is i ≠ nameAt ds k := by
  constructor
  · intro h i k hnamed hunnamed heq
    have hlt := lt_length_of_nameAt_ne_nil (heq ▸ hnamed : nameAt is i ≠ [])
    exact h k (lt_length_of_nameAt_ne_nil hnamed) hnamed hunnamed _ (List.getElem_mem hlt)
      ((nameAt_of_lt hlt).symm.trans heq)
  · intro h k _ hnamed hunnamed p hp
    obtain ⟨i, hi, rfl⟩ := List.getElem_of_mem hp
    exact nameAt_of_lt hi ▸ h i k hnamed hunnamed

/-- **What a merge does to distinct names.** -/
theorem distinctNames_mergeParameters_iff (hd : DistinctNames ds) (hi : DistinctNames is) :
    DistinctNames (mergeParameters ds is) ↔ AvoidsKeptNames ds is := by
  rw [distinctNames_iff] at hd hi ⊢
  rw [avoidsKeptNames_iff]
  simp only [nameAt_mergeParameters]
  constructor
  · intro h i k hnamed hunnamed heq
    have hnamei : nameAt is i ≠ [] := heq ▸ hnamed
    have hsame : i = k := by
      refine h i k ?_ ?_
      · rwa [if_neg hnamei]
      · rw [if_neg hnamei, if_pos hunnamed, heq]
    exact hnamei (hsame ▸ hunnamed)
  · intro h i j hnamed heq
    split at heq
    · rename_i hnamei
      rw [if_pos hnamei] at hnamed
      split at heq
      · exact hd i j hnamed heq
      · exact absurd heq.symm (h j i hnamed hnamei)
    · rename_i hnamei
      split at heq
      · rename_i hnamej
        exact absurd heq (h i j (heq ▸ hnamei) hnamej)
      · exact hi i j hnamei heq

end

/-! ### The signature of an extension method -/

/-- What precedes the parameters of an extension method. -/
def extensionHead (types : TypeMap) (d : TypeDecl) (m : Method) : Text :=
  "public static " ++ types.mapType (if isFactory m d.name then d.name else m.returnType) ++ " " ++
    m.name

/-- The instance that an extension method extends, as it is written. -/
def instanceText (d : TypeDecl) : Text :=
  "this " ++ d.name ++ " " ++ instanceName d.name

/-- The lines of the signature of an extension method. -/
def extensionLines (types : TypeMap) (d : TypeDecl) (m : Method) : List Text :=
  addParameterLine (instanceText d) (signatureLines types (extensionHead types d m) m.parameters)

/-- The names of the parameters of an extension method. -/
def extensionNames (d : TypeDecl) (m : Method) : List Text :=
  instanceName d.name :: printedNames m.parameters

/-- The signature is written in front of the body. -/
theorem extension_eq (w : Writer) (types : TypeMap) (d : TypeDecl) (implementing : Option Text)
    (implementations : List Method) (m : Method) (level : Int) :
    w.extension types d implementing implementations m level =
      ((w.lineAll m.headerComments level).signature (extensionLines types d m) level []).body m
        (extensionBody d implementing implementations m) level := rfl

section

variable {head inner : Text}

/-- Where the parameters of a signature start, if nothing in front of them opens a bracket. -/
theorem length_takeWhile_paren (hhead : '(' ∉ head) (rest : Text) :
    ((head ++ '(' :: rest).takeWhile (· != '(')).length = head.length := by
  have hother : ∀ c ∈ head, (c != '(') = true := fun c hc => bne_iff_ne.mpr fun h => hhead (h ▸ hc)
  rw [List.takeWhile_append_of_pos hother]
  simp

/-- A signature up to its opening parenthesis is its head with the parenthesis. -/
theorem take_opened (head rest : Text) :
    (head ++ '(' :: rest).take (head.length + 1) = head ++ ['('] := by
  rw [List.append_cons, List.take_left' (by simp)]

/-- Behind the opening parenthesis is the rest. -/
theorem drop_opened (head rest : Text) : (head ++ '(' :: rest).drop (head.length + 1) = rest := by
  rw [List.append_cons, List.drop_left' (by simp)]

/-- One more parameter in front of those on a line. -/
theorem addFirstParameter_closed (parameter : Text) (hhead : '(' ∉ head)
    (hinner : inner.endsWith "(" = false) :
    addFirstParameter parameter (head ++ '(' :: (inner ++ [')'])) =
      head ++ '(' ::
        (parameter ++ (if inner.isEmpty then [] else ',' :: ' ' :: inner) ++ [')']) := by
  rcases inner.eq_nil_or_concat' with rfl | ⟨front, c, rfl⟩
  · have hempty : Text.endsWith (head ++ '(' :: ([] ++ [')'])) "()" = true :=
      List.isSuffixOf_iff_suffix.mpr (List.suffix_append _ _)
    rw [addFirstParameter, if_pos hempty]
    simp
  · have hc : ('(' == c) = false := by
      simpa [Text.endsWith, List.isSuffixOf, List.isPrefixOf] using hinner
    have hempty : Text.endsWith (head ++ '(' :: (front ++ [c] ++ [')'])) "()" = false := by
      simp [Text.endsWith, List.isSuffixOf, List.isPrefixOf, hc]
    have hopen : Text.endsWith (head ++ '(' :: (front ++ [c] ++ [')'])) "(" = false := by
      simp [Text.endsWith, List.isSuffixOf, List.isPrefixOf]
    simp only [addFirstParameter, hempty, hopen, length_takeWhile_paren hhead, take_opened,
      drop_opened]
    simp

/-- One more parameter on a line that opens a signature. -/
theorem addFirstParameter_open (parameter : Text) (hhead : '(' ∉ head) :
    addFirstParameter parameter (head ++ ['(']) = head ++ '(' :: (parameter ++ [',']) := by
  have hempty : Text.endsWith (head ++ ['(']) "()" = false := by
    simp [Text.endsWith, List.isSuffixOf, List.isPrefixOf]
  have hopen : Text.endsWith (head ++ ['(']) "(" = true :=
    List.isSuffixOf_iff_suffix.mpr (List.suffix_append _ _)
  simp only [addFirstParameter, hempty, hopen, length_takeWhile_paren hhead, take_opened,
    drop_opened]
  simp

end

/-- What the parameters of an extension method look like, if none has a comment. -/
def extensionTexts (types : TypeMap) (d : TypeDecl) (m : Method) : List Text :=
  instanceText d :: m.parameters.mapIdx fun k p => parameterText types p k

/-- A parameter is not written as nothing. -/
theorem parameterText_ne_nil (types : TypeMap) (p : Parameter) (k : Nat) :
    parameterText types p k ≠ [] := by
  simp [parameterText_eq, Parameter.beforeName]

/-- One more text in front of a row of texts none of which is empty. -/
theorem join_comma_cons {ts : List Text} (hts : ∀ t ∈ ts, t ≠ []) (t : Text) :
    Text.join ", " (t :: ts) = t ++ if (Text.join ", " ts).isEmpty then []
      else ',' :: ' ' :: Text.join ", " ts := by
  cases ts with
  | nil => simp [Text.join]
  | cons u us =>
      have hu := hts u List.mem_cons_self
      have hne : Text.join ", " (u :: us) ≠ [] := by
        cases us <;> simp [Text.join, hu]
      simpa [Text.join] using hne

/-- **The signature of an extension method** is one with the instance as its first parameter: on the
line of the others, or on the line that opens the signature where every parameter has its own. -/
theorem extensionLines_eq {types : TypeMap} {d : TypeDecl} {m : Method}
    (hhead : '(' ∉ extensionHead types d m)
    (hlast : Text.endsWith (Text.join ", " (m.parameters.mapIdx fun k p => parameterText types p k))
      "(" = false) :
    extensionLines types d m =
      if m.parameters.any fun p => !p.comments.isEmpty then
        (extensionHead types d m ++ "(" ++ instanceText d ++ ",") ::
          (m.parameters.mapIdx fun k p =>
            parameterLines types p k (k + 1 == m.parameters.length)).flatten
      else
        [extensionHead types d m ++ "(" ++ Text.join ", " (extensionTexts types d m) ++ ")"] := by
  rw [extensionLines, signatureLines]
  split
  · have hline := addFirstParameter_open (instanceText d) hhead
    rw [addParameterLine]
    simpa using hline
  · have hne : ∀ t ∈ m.parameters.mapIdx fun k p => parameterText types p k, t ≠ [] := by
      intro t ht
      obtain ⟨k, hk, rfl⟩ := List.mem_mapIdx.mp ht
      exact parameterText_ne_nil types _ k
    have hline := addFirstParameter_closed (instanceText d) hhead hlast
    rw [addParameterLine, extensionTexts, join_comma_cons hne]
    simpa using hline

/-! ### Where the names meet -/

/-- **When all names of a signature are distinct.** Parameters are written with their printed names.
After a merge of two lists with distinct names these are distinct just if the implementation avoids
the names that are kept from the declaration, and no given name is that of a place without one. An
extension method has the instance in front of its parameters, and its names are distinct just if
theirs are and none of them is the name of the instance. -/
theorem emittedNames_nodup_iff (types : TypeMap) :
    (∀ (p : Parameter) (k : Nat),
      parameterText types p k = p.beforeName types ++ p.printedName k ++ p.afterName) ∧
    (∀ declared implemented : List Parameter, DistinctNames declared → DistinctNames implemented →
      ((printedNames (mergeParameters declared implemented)).Nodup ↔
        AvoidsKeptNames declared implemented ∧
          AvoidsPlaceNames (mergeParameters declared implemented))) ∧
    ∀ (d : TypeDecl) (m : Method), DistinctNames m.parameters →
      ((extensionNames d m).Nodup ↔
        AvoidsPlaceNames m.parameters ∧ instanceName d.name ∉ printedNames m.parameters) ∧
      (∀ (w : Writer) (implementing : Option Text) (implementations : List Method) (level : Int),
        w.extension types d implementing implementations m level =
          ((w.lineAll m.headerComments level).signature (extensionLines types d m) level []).body m
            (extensionBody d implementing implementations m) level) ∧
      ('(' ∉ extensionHead types d m →
        Text.endsWith (Text.join ", " (m.parameters.mapIdx fun k p => parameterText types p k)) "("
          = false →
        extensionLines types d m =
          if m.parameters.any fun p => !p.comments.isEmpty then
            (extensionHead types d m ++ "(" ++ instanceText d ++ ",") ::
              (m.parameters.mapIdx fun k p =>
                parameterLines types p k (k + 1 == m.parameters.length)).flatten
          else
            [extensionHead types d m ++ "(" ++
              Text.join ", " (extensionTexts types d m) ++ ")"]) := by
  refine ⟨parameterText_eq types, fun declared implemented hd hi => ?_, fun d m hnames =>
    ⟨?_, fun w implementing implementations level =>
      extension_eq w types d implementing implementations m level, extensionLines_eq⟩⟩
  · rw [printedNames_nodup_iff, distinctNames_mergeParameters_iff hd hi]
  · rw [extensionNames, List.nodup_cons, printedNames_nodup_iff]
    exact ⟨fun h => ⟨h.2.2, h.1⟩, fun h => ⟨h.2, hnames, h.1⟩⟩

/-- An implementation that swaps the names of its declaration, with a third parameter that has none;
and a factory with one parameter. -/
theorem emittedNames_nodup_swap :
    (printedNames (mergeParameters
        [{ baseType := "int", name := "a" }, { baseType := "int", name := "b" },
          { baseType := "int" }]
        [{ baseType := "int", name := "b" }, { baseType := "int", name := "a" },
          { baseType := "int" }])).Nodup ∧
      extensionLines [] { name := "IStore" }
          { name := "Create", returnType := "IStore*", isStatic := true,
            parameters := [{ baseType := "int", name := "size" }] } =
        ["public static IStore Create(this IStore store, int size)"] := by
  obtain ⟨-, hmerge, hextension⟩ := emittedNames_nodup_iff []
  refine ⟨(hmerge _ _ (by decide) (by decide)).mpr ⟨?_, ?_⟩, ?_⟩
  · unfold AvoidsKeptNames
    decide
  · unfold AvoidsPlaceNames
    decide
  · refine ((hextension { name := "IStore" } _ (by decide)).2.2 (by decide) (by decide)).trans ?_
    decide

/-- **Names do meet.** The implementation has one parameter and calls it what the declaration calls
its second one; and a parameter of a factory is called like the interface. -/
theorem not_forall_emittedNames_nodup :
    (¬∀ declared implemented : List Parameter, DistinctNames declared → DistinctNames implemented →
      (printedNames (mergeParameters declared implemented)).Nodup) ∧
    ¬∀ (d : TypeDecl) (m : Method), m ∈ staticMethods d → DistinctNames m.parameters →
      (extensionNames d m).Nodup := by
  refine ⟨fun h => ?_, fun h => ?_⟩
  · have hnodup := h [{ baseType := "int", name := "a" }, { baseType := "int", name := "b" }]
      [{ baseType := "int", name := "b" }] (by decide) (by decide)
    exact absurd hnodup (by decide)
  · let m : Method :=
      { name := "Create", returnType := "IStore*", isStatic := true, visibility := .pub
        parameters := [{ baseType := "int", name := "store" }] }
    have hnodup := h { name := "IStore", methods := [m] } m (by decide) (by decide)
    exact absurd hnodup (by decide)

end Sharpen
