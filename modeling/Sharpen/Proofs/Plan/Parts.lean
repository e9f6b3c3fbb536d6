import Mathlib.Data.List.Basic
import Mathlib.Data.List.Nodup
import Mathlib.Data.List.Perm.Basic
import Sharpen.Plan.Files

/-!
# The Parts of a Type

A class whose bodies come from several files is split into a main part and one fragment for each
other file. Which parts there are is decided three times over: by counting the files that are met,
by taking the methods that are at home, and by gathering the others file by file. Here the three are
shown to agree.

Home is the file of the header: bodies from there, methods without bodies and whatever has no file
stay in the main part. The others are gathered by file, in the order of the file names, and each
keeps the order of the type. So the parts are a partition of the methods by a key, which is a
statement about lists that knows nothing of types.

## Main definitions

* `TypeDecl.parts` — the parts of a type; `addType` adds exactly these.
* `TypeDecl.IsSpread` — the bodies of a type come from at least two files.
* `TypeDecl.foreignFiles` — the files that hold a fragment's bodies, by name.
* `TypeDecl.mainPart` — the main part of a type.
* `TypeDecl.fragment` — the fragment of a type with bodies in the file `target`.

## Main results

* `TypeDecl.isSplit_iff` — a type is split iff it is no interface and its bodies come from two
  files.
* `TypeDecl.flatMap_methods_parts` — the parts hold every method once.
* `TypeDecl.one_lt_length_parts_iff` — there is more than one part iff the type is split.
* `perm_flatMap_filter` — gathering the elements of a list key by key gives those whose key is among
  the keys.
* `TypeDecl.isPartial_iff` — counting the files: there are two iff the bodies come from two files.
* `TypeDecl.sublist_of_mem_parts` — every part has its methods in the order of the type.
* `TypeDecl.filter_isMain_parts` — one part is the main one.
-/

namespace Sharpen

/-! ### Gathering by key -/

/-- Without repetitions nothing occurs twice. -/
theorem nodup_eraseDups (l : List Text) : l.eraseDups.Nodup := by
  induction hn : l.length using Nat.strongRecOn generalizing l with
  | ind n ih =>
      cases l with
      | nil => exact List.nodup_nil
      | cons a r =>
          have hlt : (r.filter fun b => !b == a).length < n := by
            rw [← hn, List.length_cons]
            exact Nat.lt_succ_of_le (List.length_filter_le _ _)
          rw [List.eraseDups_cons, List.nodup_cons, List.mem_eraseDups]
          exact ⟨by simp, ih _ hlt _ rfl⟩

/-- **Gathering the elements of a list key by key** gives those whose key is among the keys. Those
with a key in `k :: ks` are those with key `k` and those with one in `ks`. -/
theorem perm_flatMap_filter {α κ : Type} [BEq κ] [LawfulBEq κ] (key : α → κ) (l : List α)
    {keys : List κ} (hkeys : keys.Nodup) :
    (keys.flatMap fun k => l.filter fun a => key a == k).Perm
      (l.filter fun a => keys.contains (key a)) := by
  induction keys with
  | nil => simp
  | cons k ks ih =>
      obtain ⟨hk, hks⟩ := List.nodup_cons.mp hkeys
      have hsplit := List.filter_append_perm (fun a => key a == k)
        (l.filter fun a => (k :: ks).contains (key a))
      have hfirst : (l.filter fun a => (k :: ks).contains (key a)).filter (fun a => key a == k)
          = l.filter fun a => key a == k := by
        rw [List.filter_filter]
        refine List.filter_congr fun a _ => ?_
        by_cases hak : key a = k <;> simp [hak]
      have hrest : (l.filter fun a => (k :: ks).contains (key a)).filter (fun a => !(key a == k))
          = l.filter fun a => ks.contains (key a) := by
        rw [List.filter_filter]
        refine List.filter_congr fun a _ => ?_
        by_cases hak : key a = k
        · simp [hak, hk]
        · simp [hak]
      rw [hfirst, hrest] at hsplit
      rw [List.flatMap_cons]
      exact ((ih hks).append_left _).trans hsplit

namespace TypeDecl

variable {d : TypeDecl}

/-! ### Files with bodies -/

/-- The bodies of a type come from at least two files. -/
def IsSpread (d : TypeDecl) : Prop :=
  ∃ a ∈ d.methods, ∃ b ∈ d.methods,
    a.targetFile ≠ [] ∧ b.targetFile ≠ [] ∧ a.targetFile ≠ b.targetFile

/-- The files met so far, with that of one more method. -/
def meetFile (seen : List Text) (m : Method) : List Text :=
  if m.targetFile.isEmpty || seen.contains m.targetFile then seen else seen ++ [m.targetFile]

/-- What is met in a row of methods behind the files in `seen`. -/
theorem mem_foldl_meetFile {methods : List Method} {seen : List Text} (hseen : seen.Nodup) :
    (methods.foldl meetFile seen).Nodup ∧
      ∀ f, f ∈ methods.foldl meetFile seen ↔
        f ∈ seen ∨ f ≠ [] ∧ ∃ m ∈ methods, m.targetFile = f := by
  induction methods generalizing seen with
  | nil => simp [hseen]
  | cons m r ih =>
      rw [List.foldl_cons, meetFile]
      split
      · rename_i hskip
        rw [Bool.or_eq_true, List.isEmpty_iff, List.contains_iff_mem] at hskip
        refine ⟨(ih hseen).1, fun f => ((ih hseen).2 f).trans ?_⟩
        constructor
        · rintro (hf | ⟨hf, k, hk, rfl⟩)
          · exact Or.inl hf
          · exact Or.inr ⟨hf, k, List.mem_cons_of_mem _ hk, rfl⟩
        · rintro (hf | ⟨hf, k, hk, rfl⟩)
          · exact Or.inl hf
          · rcases List.mem_cons.mp hk with rfl | hk
            · exact Or.inl (hskip.resolve_left hf)
            · exact Or.inr ⟨hf, k, hk, rfl⟩
      · rename_i hnew
        simp only [Bool.or_eq_true, List.isEmpty_iff, List.contains_iff_mem, not_or] at hnew
        have hseen' : (seen ++ [m.targetFile]).Nodup := by
          refine List.nodup_append.mpr ⟨hseen, List.nodup_singleton _, ?_⟩
          rintro a ha b hb rfl
          exact hnew.2 (List.mem_singleton.mp hb ▸ ha)
        refine ⟨(ih hseen').1, fun f => ((ih hseen').2 f).trans ?_⟩
        constructor
        · rintro (hf | ⟨hf, k, hk, rfl⟩)
          · rcases List.mem_append.mp hf with hf | hf
            · exact Or.inl hf
            · obtain rfl := List.mem_singleton.mp hf
              exact Or.inr ⟨hnew.1, m, List.mem_cons_self, rfl⟩
          · exact Or.inr ⟨hf, k, List.mem_cons_of_mem _ hk, rfl⟩
        · rintro (hf | ⟨hf, k, hk, rfl⟩)
          · exact Or.inl (List.mem_append_left _ hf)
          · rcases List.mem_cons.mp hk with rfl | hk
            · exact Or.inl (List.mem_append_right _ (List.mem_singleton_self _))
            · exact Or.inr ⟨hf, k, hk, rfl⟩

/-- No file is listed twice. -/
theorem nodup_targetFiles (d : TypeDecl) : d.targetFiles.Nodup :=
  (mem_foldl_meetFile List.nodup_nil).1

/-- The files that hold bodies of a type. -/
theorem mem_targetFiles {f : Text} :
    f ∈ d.targetFiles ↔ f ≠ [] ∧ ∃ m ∈ d.methods, m.targetFile = f := by
  exact ((mem_foldl_meetFile List.nodup_nil).2 f).trans (by simp)

/-- **Counting the files**: there are two iff the bodies come from two files. -/
theorem isPartial_iff : d.isPartial = true ↔ d.IsSpread := by
  rw [isPartial, decide_eq_true_iff]
  constructor
  · intro hlen
    match hfiles : d.targetFiles, hlen with
    | f :: g :: r, _ =>
        have hf : f ∈ d.targetFiles := by simp [hfiles]
        have hg : g ∈ d.targetFiles := by simp [hfiles]
        have hne : f ≠ g := by
          have hnodup := d.nodup_targetFiles
          rw [hfiles] at hnodup
          exact fun h => (List.nodup_cons.mp hnodup).1 (h ▸ List.mem_cons_self)
        obtain ⟨hf, a, ha, rfl⟩ := mem_targetFiles.mp hf
        obtain ⟨hg, b, hb, rfl⟩ := mem_targetFiles.mp hg
        exact ⟨a, ha, b, hb, hf, hg, hne⟩
  · rintro ⟨a, ha, b, hb, hfa, hfb, hne⟩
    have hma : a.targetFile ∈ d.targetFiles := mem_targetFiles.mpr ⟨hfa, a, ha, rfl⟩
    have hmb : b.targetFile ∈ d.targetFiles := mem_targetFiles.mpr ⟨hfb, b, hb, rfl⟩
    match hfiles : d.targetFiles with
    | [] => simp [hfiles] at hma
    | [f] =>
        rw [hfiles, List.mem_singleton] at hma hmb
        exact absurd (hma.trans hmb.symm) hne
    | _ :: _ :: _ => simp

/-- A type is split iff it is no interface and its bodies come from two files. -/
theorem isSplit_iff : isSplit d = true ↔ d.isInterface = false ∧ d.IsSpread := by
  rw [isSplit, Bool.and_eq_true, isPartial_iff, Bool.not_eq_true', and_comm]

/-! ### Parts -/

/-- Whether methods with bodies in a file stay in the main part. -/
def isAtHome (d : TypeDecl) (file : Text) : Bool :=
  file.isEmpty || file == d.file

/-- The files that hold a fragment's bodies, by name. -/
def foreignFiles (d : TypeDecl) : List Text :=
  ((d.methods.map Method.targetFile).eraseDups.filter fun f => !d.isAtHome f).mergeSort
    Text.precedes

/-- The main part of a type. -/
def mainPart (d : TypeDecl) : Section where
  type := d
  methods := if isSplit d then d.methods.filter fun m => d.isAtHome m.targetFile else d.methods
  isMain := true
  isPartial := isSplit d

/-- The fragment of a type with bodies in the file `target`. -/
def fragment (d : TypeDecl) (target : Text) : Section where
  type := d
  methods := d.methods.filter (·.targetFile == target)
  isMain := false
  isPartial := true

/-- The parts of a type. -/
def parts (d : TypeDecl) : List Section :=
  d.mainPart :: if isSplit d then d.foreignFiles.map d.fragment else []

/-- Every foreign file is listed once. -/
theorem nodup_foreignFiles (d : TypeDecl) : d.foreignFiles.Nodup :=
  (List.mergeSort_perm _ _).nodup_iff.mpr ((nodup_eraseDups _).filter _)

/-- The foreign files are those of the methods that are not at home. -/
theorem mem_foreignFiles {f : Text} :
    f ∈ d.foreignFiles ↔ d.isAtHome f = false ∧ ∃ m ∈ d.methods, m.targetFile = f := by
  rw [foreignFiles, List.mem_mergeSort, List.mem_filter, List.mem_eraseDups, List.mem_map,
    Bool.not_eq_true', and_comm]

/-- A part is the main part or a fragment of a type that is split. -/
theorem mem_parts {s : Section} :
    s ∈ d.parts ↔ s = d.mainPart ∨ isSplit d = true ∧ ∃ f ∈ d.foreignFiles, s = d.fragment f := by
  rw [parts, List.mem_cons]
  by_cases hsplit : isSplit d = true
  · simp [hsplit, eq_comm]
  · simp [hsplit]

/-- All parts are parts of the type. -/
theorem type_of_mem_parts {s : Section} (hs : s ∈ d.parts) : s.type = d := by
  rcases mem_parts.mp hs with rfl | ⟨-, f, -, rfl⟩
  · rfl
  · rfl

/-- **The parts hold every method once.** -/
theorem flatMap_methods_parts (d : TypeDecl) :
    (d.parts.flatMap Section.methods).Perm d.methods := by
  rw [parts, List.flatMap_cons]
  by_cases hsplit : isSplit d = true
  · rw [if_pos hsplit, List.flatMap_map, mainPart, if_pos hsplit]
    have hgathered := perm_flatMap_filter Method.targetFile d.methods d.nodup_foreignFiles
    have hforeign : (d.methods.filter fun m => d.foreignFiles.contains m.targetFile)
        = d.methods.filter fun m => !d.isAtHome m.targetFile := by
      refine List.filter_congr fun m hm => ?_
      rw [Bool.eq_iff_iff, List.contains_iff_mem, mem_foreignFiles, Bool.not_eq_true']
      exact ⟨And.left, fun h => ⟨h, m, hm, rfl⟩⟩
    rw [hforeign] at hgathered
    exact (hgathered.append_left _).trans (List.filter_append_perm _ _)
  · rw [if_neg hsplit, mainPart, if_neg hsplit]
    simp

/-- **Every part has its methods in the order of the type.** -/
theorem sublist_of_mem_parts {s : Section} (hs : s ∈ d.parts) : s.methods.Sublist d.methods := by
  rcases mem_parts.mp hs with rfl | ⟨-, f, -, rfl⟩
  · rw [mainPart]
    split
    · exact List.filter_sublist
    · exact List.Sublist.refl _
  · exact List.filter_sublist

/-- **One part is the main one.** -/
theorem filter_isMain_parts (d : TypeDecl) : d.parts.filter Section.isMain = [d.mainPart] := by
  have hfragments : (if isSplit d then d.foreignFiles.map d.fragment else []).filter Section.isMain
      = [] := by
    refine List.filter_eq_nil_iff.mpr fun s hs => ?_
    split at hs
    · obtain ⟨f, -, rfl⟩ := List.mem_map.mp hs
      exact Bool.false_ne_true
    · cases hs
  rw [parts, List.filter_cons_of_pos rfl, hfragments]

/-- A type whose bodies come from two files has a foreign file. -/
theorem foreignFiles_ne_nil (hspread : d.IsSpread) : d.foreignFiles ≠ [] := by
  obtain ⟨a, ha, b, hb, hfa, hfb, hne⟩ := hspread
  by_cases hhome : a.targetFile = d.file
  · have hb' : b.targetFile ≠ d.file := fun h => hne (hhome.trans h.symm)
    exact List.ne_nil_of_mem (mem_foreignFiles.mpr ⟨by simp [isAtHome, hfb, hb'], b, hb, rfl⟩)
  · exact List.ne_nil_of_mem (mem_foreignFiles.mpr ⟨by simp [isAtHome, hfa, hhome], a, ha, rfl⟩)

/-- **There is more than one part iff the type is split.** -/
theorem one_lt_length_parts_iff : 1 < d.parts.length ↔ isSplit d = true := by
  rw [parts, List.length_cons]
  by_cases hsplit : isSplit d = true
  · have hpos := List.length_pos_iff.mpr (foreignFiles_ne_nil (isSplit_iff.mp hsplit).2)
    rw [if_pos hsplit, List.length_map]
    exact ⟨fun _ => hsplit, fun _ => by omega⟩
  · simp [hsplit]

/-- A part says whether the type is split. -/
theorem isPartial_of_mem_parts {s : Section} (hs : s ∈ d.parts) : s.isPartial = isSplit d := by
  rcases mem_parts.mp hs with rfl | ⟨hsplit, f, -, rfl⟩
  · rfl
  · exact hsplit.symm

end TypeDecl

end Sharpen
