import Sharpen.Proofs.Header.Constants

/-!
# The Owner of the File's Constants

C# has no place for a constant outside all types, so one type of a header takes in those that the
header defines outside its types. It is picked only when all types are known: the one that is called
like the file, or else the only one, or else the first class, and never a struct. This module says
for all texts where the constants of a header are in the end.

Nothing is lost and nothing comes up twice, because a line is outside all types or in the body of
one of them, and a constant keeps the position of its line. The constants of the picked type are put
in the order of the text again, as those of the file may stand before its body as well as behind it.

## Main definitions

* `Header.OwnsConstants` — where the constants of a header are, given the bodies of its types.
* `withFileConstants` — the types with the constants of the file in the one that is picked.

## Main results

* `constantOwner?_congr` — the pick goes by the kinds and names of the types alone.
* `exists_of_constantOwner?` — no struct is picked.
* `HeaderScan.Collected.constants_picked`, `HeaderScan.Collected.constants_others` — the constants
  of the picked type, and of the others.
* `ownsConstants_parseHeader` — the constants of the file reach exactly one type, or none if no type
  is picked, for all texts.
-/

namespace Sharpen

/-! ### The type that takes in the constants of the file -/

/-- The pick goes by the kinds and names of the types alone. -/
theorem constantOwner?_congr {types types' : List TypeDecl}
    (h : types.map (fun d => (d.kind, d.name)) = types'.map fun d => (d.kind, d.name))
    (stem : Text) : constantOwner? types stem = constantOwner? types' stem := by
  have hfind : ∀ (p : TypeKind × Text → Bool) (ts : List TypeDecl),
      ts.findIdx? (fun d => p (d.kind, d.name))
        = (ts.map fun d => (d.kind, d.name)).findIdx? p := by
    intro p ts
    rw [List.findIdx?_map]
    rfl
  have hcount : ∀ (p : TypeKind × Text → Bool) (ts : List TypeDecl),
      ts.countP (fun d => p (d.kind, d.name))
        = (ts.map fun d => (d.kind, d.name)).countP p := by
    intro p ts
    rw [List.countP_map]
    rfl
  have hcandidate := congrArg (List.findIdx? fun x => x.1 != .structType) h
  have hnamed := congrArg (List.findIdx? fun x => x.1 != .structType && x.2 == stem) h
  have hclass := congrArg (List.findIdx? fun x => x.1 == .classType) h
  have hnumber := congrArg (List.countP fun x => x.1 != .structType) h
  rw [← hfind, ← hfind] at hcandidate hnamed hclass
  rw [← hcount, ← hcount] at hnumber
  simp only [constantOwner?]
  rw [hnamed, hcandidate, hclass, hnumber]

/-- **No struct is picked.** -/
theorem exists_of_constantOwner? {types : List TypeDecl} {stem : Text} {i : Nat}
    (h : constantOwner? types stem = some i) :
    ∃ d, types[i]? = some d ∧ d.kind ≠ .structType := by
  have hfound : ∀ {p : TypeDecl → Bool}, types.findIdx? p = some i →
      (∀ d, p d = true → d.kind ≠ .structType) →
        ∃ d, types[i]? = some d ∧ d.kind ≠ .structType := by
    intro p hp hkind
    obtain ⟨hlt, hi, -⟩ := List.findIdx?_eq_some_iff_getElem.mp hp
    exact ⟨_, List.getElem?_eq_getElem hlt, hkind _ hi⟩
  simp only [constantOwner?] at h
  split at h
  · rename_i j hj
    refine hfound (hj.trans h) fun d hd => ?_
    simp only [Bool.and_eq_true, bne_iff_ne] at hd
    exact hd.1
  · split at h
    · refine hfound h fun d hd => ?_
      simpa using hd
    · refine hfound h fun d hd => ?_
      rw [beq_iff_eq.mp hd]
      decide

/-- Constants at different places are in strict order once they are sorted. -/
theorem pairwise_mergeSort_position {cs : List Constant} (h : (cs.map Constant.position).Nodup) :
    (cs.mergeSort fun a b => a.position ≤ b.position).Pairwise
      fun a b => a.position < b.position := by
  have hsorted : (cs.mergeSort fun a b => a.position ≤ b.position).Pairwise
      fun a b => decide (a.position ≤ b.position) = true := by
    refine List.pairwise_mergeSort (fun a b c hab hbc => ?_) (fun a b => ?_) cs
    · simp only [decide_eq_true_eq] at hab hbc ⊢
      omega
    · simp only [Bool.or_eq_true, decide_eq_true_eq]
      omega
  have hne : (cs.mergeSort fun a b => a.position ≤ b.position).Pairwise
      fun a b => a.position ≠ b.position :=
    List.pairwise_map.mp (((List.mergeSort_perm cs _).map Constant.position).nodup_iff.mpr h)
  refine (hsorted.and hne).imp fun hab => ?_
  have hle := of_decide_eq_true hab.1
  have hne := hab.2
  omega

namespace HeaderScan.Collected

variable {page : Page} {visits : List (HeaderScan × Nat)} {bodies : List BodySpan} {s : HeaderScan}
  {pos : Nat} {b : BodySpan} {d : TypeDecl} {c : Constant}

/-- The body of a type, and its constants. -/
theorem getElem?_types (h : s.Collected page visits bodies pos) {j : Nat}
    (hd : s.types[j]? = some d) (hb : bodies[j]? = some b) :
    page.IsBodyOf b d ∧ d.headerConstants = page.bodyConstants visits b := by
  obtain ⟨hj, rfl⟩ := List.getElem?_eq_some_iff.mp hd
  obtain ⟨hj', rfl⟩ := List.getElem?_eq_some_iff.mp hb
  exact (List.forall₂_iff_get.mp h.types).2 j hj' hj

/-- The constants of the file stand outside all bodies. -/
theorem has_eq_false_of_mem_constants (h : s.Collected page visits bodies pos)
    (hc : c ∈ s.constants) (hb : b ∈ bodies) : b.has c.position = false := by
  rw [h.file] at hc
  obtain ⟨v, hv, hnone, hposition⟩ := Page.exists_of_mem_fileConstants hc
  rw [hposition]
  exact h.outside b hb v hv hnone

/-- The constants of a body are in the order of the text. -/
theorem pairwise_bodyConstants (h : s.Collected page visits bodies pos) (b : BodySpan) :
    (page.bodyConstants visits b).Pairwise fun a b => a.position < b.position :=
  Page.pairwise_filterMap_constantAt? h.ordered fun v => b.has v.2

/-- No two of the constants of a body and of the file stand at the same place. -/
theorem nodup_position (h : s.Collected page visits bodies pos) (hb : b ∈ bodies) :
    ((page.bodyConstants visits b ++ s.constants).map Constant.position).Nodup := by
  have hfile : s.constants.Pairwise fun a b => a.position < b.position := by
    rw [h.file]
    exact Page.pairwise_filterMap_constantAt? h.ordered fun v => v.1.current.isNone
  refine List.pairwise_map.mpr (List.pairwise_append.mpr ⟨?_, ?_, fun a ha c hc heq => ?_⟩)
  · exact (h.pairwise_bodyConstants b).imp Nat.ne_of_lt
  · exact hfile.imp Nat.ne_of_lt
  · have hinside := Page.has_of_mem_bodyConstants ha
    rw [heq, h.has_eq_false_of_mem_constants hc hb] at hinside
    cases hinside

end HeaderScan.Collected

/-- **Where the constants of a header are**, given the bodies of its types on the page it was read
from. -/
structure Header.OwnsConstants (h : Header) (page : Page) (bodies : List BodySpan) : Prop where
  /-- There is one body for each type, and they follow each other. -/
  types : List.Forall₂ page.IsBodyOf bodies h.types
  apart : bodies.Pairwise fun a b => a.stop < b.start
  /-- The constants of the file are found outside all types. -/
  file : h.constants = page.fileConstants page.visits
  /-- They are what the lines outside types define. -/
  defined : h.constants.map Constant.bare = page.filePlaces.filterMap page.definedAt?
  outside : ∀ c ∈ h.constants, ∀ b ∈ bodies, b.has c.position = false
  /-- The type that is picked is no struct. It has the constants found in its body and those of the
  file, each once and in the order of the text. -/
  picked : ∀ i, constantOwner? h.types h.stem = some i → ∃ d b, h.types[i]? = some d ∧
    bodies[i]? = some b ∧ d.kind ≠ .structType ∧
    d.headerConstants.Perm (page.bodyConstants page.visits b ++ h.constants) ∧
    d.headerConstants.Pairwise fun a b => a.position < b.position
  /-- All other types have the constants found in their bodies, in the order of the text, and none
  of the file. -/
  others : ∀ i d b, constantOwner? h.types h.stem ≠ some i → h.types[i]? = some d →
    bodies[i]? = some b →
    d.headerConstants = page.bodyConstants page.visits b ∧
    d.headerConstants.Pairwise (fun a b => a.position < b.position) ∧
    ∀ c ∈ d.headerConstants, c ∉ h.constants

/-- The types with the constants of the file, in the one that is picked. -/
def withFileConstants (types : List TypeDecl) (stem : Text) (constants : List Constant) :
    List TypeDecl :=
  match constantOwner? types stem with
  | some i => assignConstants types i constants
  | none => types

/-- What a type has once the constants of the file have been given away. -/
theorem getElem?_withFileConstants (types : List TypeDecl) (stem : Text)
    (constants : List Constant) (j : Nat) :
    (withFileConstants types stem constants)[j]? = types[j]?.map fun d =>
      if constantOwner? types stem = some j then
        { d with headerConstants :=
            (d.headerConstants ++ constants).mergeSort fun a b => a.position ≤ b.position }
      else d := by
  rw [withFileConstants]
  cases constantOwner? types stem with
  | none => simp
  | some i =>
      dsimp only
      rw [assignConstants, List.getElem?_modify]
      simp only [Option.some.injEq]
      rfl

/-- The pick is the same for the types with the constants of the file. -/
theorem constantOwner?_withFileConstants (types : List TypeDecl) (stem : Text)
    (constants : List Constant) :
    constantOwner? (withFileConstants types stem constants) stem = constantOwner? types stem := by
  refine constantOwner?_congr (List.ext_getElem? fun j => ?_) stem
  rw [List.getElem?_map, getElem?_withFileConstants, List.getElem?_map, Option.map_map]
  refine congrArg (Option.map · _) (funext fun d => ?_)
  rw [Function.comp_apply]
  split <;> rfl

/-- The types keep their bodies. -/
theorem forall₂_withFileConstants {page : Page} {bodies : List BodySpan} {types : List TypeDecl}
    (h : List.Forall₂ page.IsBodyOf bodies types) (stem : Text) (constants : List Constant) :
    List.Forall₂ page.IsBodyOf bodies (withFileConstants types stem constants) := by
  have hlength : (withFileConstants types stem constants).length = types.length := by
    rw [withFileConstants]
    split
    · exact List.length_modify _ _ _
    · rfl
  refine List.forall₂_iff_get.mpr ⟨h.length_eq.trans hlength.symm, fun j hj hj' => ?_⟩
  have hbody := (List.forall₂_iff_get.mp h).2 j hj (hlength ▸ hj')
  have hget := getElem?_withFileConstants types stem constants j
  rw [List.getElem?_eq_getElem hj', List.getElem?_eq_getElem (hlength ▸ hj'), Option.map_some,
    Option.some.injEq] at hget
  rw [List.get_eq_getElem] at hbody ⊢
  rw [List.get_eq_getElem, hget]
  split
  · exact hbody
  · exact hbody

namespace HeaderScan.Collected

variable {page : Page} {visits : List (HeaderScan × Nat)} {bodies : List BodySpan} {s : HeaderScan}
  {pos j : Nat} {b : BodySpan} {d : TypeDecl} {stem : Text}

/-- **The type that is picked** has the constants of its body and those of the file. -/
theorem constants_picked (h : s.Collected page visits bodies pos)
    (hj : constantOwner? s.types stem = some j) :
    ∃ d b, (withFileConstants s.types stem s.constants)[j]? = some d ∧ bodies[j]? = some b ∧
      d.kind ≠ .structType ∧
      d.headerConstants.Perm (page.bodyConstants visits b ++ s.constants) ∧
      d.headerConstants.Pairwise fun a b => a.position < b.position := by
  obtain ⟨d, hd, hkind⟩ := exists_of_constantOwner? hj
  obtain ⟨b, hb⟩ : ∃ b, bodies[j]? = some b := by
    have hlt := (List.getElem?_eq_some_iff.mp hd).1
    rw [← h.types.length_eq] at hlt
    exact ⟨_, List.getElem?_eq_getElem hlt⟩
  obtain ⟨-, hown⟩ := h.getElem?_types hd hb
  rw [getElem?_withFileConstants, hd, Option.map_some, if_pos hj]
  refine ⟨_, b, rfl, hb, hkind, ?_, ?_⟩
  · dsimp only
    rw [hown]
    exact List.mergeSort_perm _ _
  · dsimp only
    rw [hown]
    exact pairwise_mergeSort_position (h.nodup_position (List.mem_of_getElem? hb))

/-- **All other types** keep the constants of their bodies. -/
theorem constants_others (h : s.Collected page visits bodies pos)
    (hj : constantOwner? s.types stem ≠ some j)
    (hd : (withFileConstants s.types stem s.constants)[j]? = some d) (hb : bodies[j]? = some b) :
    d.headerConstants = page.bodyConstants visits b ∧
    d.headerConstants.Pairwise (fun a b => a.position < b.position) ∧
    ∀ c ∈ d.headerConstants, c ∉ s.constants := by
  rw [getElem?_withFileConstants, Option.map_eq_some_iff] at hd
  obtain ⟨d, hd, rfl⟩ := hd
  rw [if_neg hj]
  obtain ⟨-, hown⟩ := h.getElem?_types hd hb
  refine ⟨hown, hown ▸ h.pairwise_bodyConstants b, fun c hc hfile => ?_⟩
  have hinside := Page.has_of_mem_bodyConstants (hown ▸ hc)
  rw [h.has_eq_false_of_mem_constants hfile (List.mem_of_getElem? hb)] at hinside
  cases hinside

end HeaderScan.Collected

/-- What has been read of a page, with all types finished. -/
def Page.finalScan (page : Page) : HeaderScan :=
  finishOpenType (headerLoop page page.firstScan 0)

/-- The header that is read from a page. -/
theorem readHeader_eq (page : Page) :
    (readHeader page).1.stem = page.stem ∧
    (readHeader page).1.constants = page.finalScan.constants ∧
    (readHeader page).1.types
      = withFileConstants page.finalScan.types page.stem page.finalScan.constants := by
  have hscan : finishOpenType (headerLoop page { claimed := (bannerComments page.lines).claimed } 0)
      = page.finalScan := rfl
  rw [readHeader, withFileConstants]
  dsimp only
  rw [hscan]
  cases constantOwner? page.finalScan.types page.stem with
  | some i => exact ⟨rfl, rfl, rfl⟩
  | none =>
      dsimp only
      split
      · exact ⟨rfl, rfl, rfl⟩
      · exact ⟨rfl, rfl, rfl⟩

/-- All that has been read of a page, each constant in its place. -/
theorem exists_collected_finalScan {page : Page}
    (hpage : page.masked.length = page.text.length) :
    ∃ bodies stop, page.finalScan.Collected page page.visits bodies stop := by
  have hstart : page.firstScan.Collected page [] [] 0 :=
    ⟨by simp, .nil, rfl, .nil, .nil, by simp, by simp, by simp [Page.firstScan]⟩
  have hplaced : page.firstScan.PlacedAt page 0 := fun o ho => by cases ho
  obtain ⟨bodies, stop, hloop⟩ := hstart.loop hplaced hpage
  rw [List.nil_append] at hloop
  exact hloop.finishOpenType

/-- **The constants of the file reach exactly one type**, for all texts: the one that is picked, and
no type at all if none is. -/
theorem ownsConstants_parseHeader (text path : Text) :
    ∃ bodies, (parseHeader text path).1.OwnsConstants (Page.ofText text path) bodies := by
  have hpage : (Page.ofText text path).masked.length = (Page.ofText text path).text.length :=
    length_maskCode _
  change ∃ bodies, (readHeader (Page.ofText text path)).1.OwnsConstants _ bodies
  generalize Page.ofText text path = page at hpage ⊢
  obtain ⟨bodies, stop, hend⟩ := exists_collected_finalScan hpage
  obtain ⟨hstem, hconstants, htypes⟩ := readHeader_eq page
  have howner : constantOwner? (readHeader page).1.types (readHeader page).1.stem
      = constantOwner? page.finalScan.types page.stem := by
    rw [htypes, hstem, constantOwner?_withFileConstants]
  have hfile := hconstants.trans hend.file
  refine ⟨bodies, ⟨?_, hend.apart, hfile, ?_, ?_, ?_, ?_⟩⟩
  · rw [htypes]
    exact forall₂_withFileConstants (hend.types.imp fun _ _ h => h.1) _ _
  · rw [hfile, Page.map_bare_fileConstants hpage]
  · rw [hconstants]
    exact fun c hc b hb => hend.has_eq_false_of_mem_constants hc hb
  · intro i hi
    rw [howner] at hi
    rw [htypes, hconstants]
    exact hend.constants_picked hi
  · intro i d b hne hd hb
    rw [howner] at hne
    rw [htypes] at hd
    rw [hconstants]
    exact hend.constants_others hne hd hb

/-- A struct does not get the constant of the file, though it comes first. -/
example :
    (parseHeader "#define A 1\nstruct S\n\x7b\n\x7d;\nclass C\n\x7b\n\x7d;\n" "x.h").1.types.map
    (fun d => (d.name, d.headerConstants.map Constant.name))
      = [(("S" : Text), []), (("C" : Text), [("A" : Text)])] := by
  decide +kernel

end Sharpen
