import Mathlib.Data.List.Infix
import Mathlib.Data.List.Nodup
import Mathlib.Data.List.Sort
import Sharpen.FileTree.Scan
import Sharpen.Proofs.Code.Zones
import Sharpen.Proofs.Text.Order

/-!
# What a Search Finds

A search goes down a tree of folders and turns away at a folder that is left out, so whether it
finds a file is decided step after step on the way there. Seen from the root it is one condition:
every folder on the way is entered, and the file is kept.

The condition is about the way: every folder on it has a name that is searched, is none of those
that are skipped, and is not matched by a pattern, and the file itself has a suffix that is asked
for and is not matched either. It is proved by induction on the tree. That no path comes twice needs
the names in a folder to be different, which every real folder grants.

## Main definitions

* `Folder.isTree` — the names in every folder are different, and each of them is a name.
* `IsAllowed`, `Finds` — the files that a search may find, and that a list of paths holds these.
* `Entry.at?` — what a location leads to from an entry.
* `Exclusion.Reaches` — whether a search enters every folder on the way from `here` to what lies at
  `p`.
* `SourceKind.suffix` — the suffix of a kind of file.

## Main results

* `Folder.at?_cons` — what a location leads to, one name at a time.
* `Folder.mem_search_iff` — the locations that a search gives, for trees of any depth.
* `Folder.nodup_search`, `relativePath_inj` — no location comes twice, nor does a path.
* `finds_scanPath` — a search finds what it may find, and with more patterns or skipped folders no
  more than before.
* `finds_ofKind` — the paths of one kind are those that may be found.
-/

namespace Sharpen

open Sharpen.Path (Location)

/-! ### Trees -/

/-- Whether a text can be the name of a file or folder. -/
def isName (name : Text) : Bool :=
  !name.isEmpty && !name.contains '/'

/-- What a location leads to from an entry. -/
def Entry.at? (l : Location) : Entry → Option Entry
  | .file content => if l = [] then some (.file content) else none
  | .folder inner => inner.at? l

namespace Folder

/-- Whether all names are names, and those in one folder are different. -/
def isTree : Folder → Bool
  | .empty => true
  | .file n _ rest => isName n && (rest.find? n).isNone && rest.isTree
  | .folder n inner rest => isName n && (rest.find? n).isNone && inner.isTree && rest.isTree

variable {f rest inner : Folder} {n m : Text} {content c : Content} {l p here root : Location}

/-- **A location leads on name by name.** -/
theorem at?_cons (f : Folder) (n : Text) (p : Location) :
    f.at? (n :: p) = (f.find? n).bind (Entry.at? p) := by
  cases p with
  | nil =>
      rw [at?]
      cases f.find? n with
      | none => rfl
      | some x => cases x <;> simp [Entry.at?, at?]
  | cons m q =>
      rw [at?.eq_3 f n (m :: q) (by simp)]
      cases f.find? n with
      | none => rfl
      | some x => cases x <;> simp [Entry.at?]

/-- A location that leads to a file has a first name, and what has that name leads on to the
file. -/
theorem exists_of_at?_eq_file (h : f.at? p = some (.file c)) :
    ∃ n q x, p = n :: q ∧ f.find? n = some x ∧ x.at? q = some (.file c) := by
  cases p with
  | nil => simp [at?] at h
  | cons n q =>
      rw [at?_cons] at h
      obtain ⟨x, hx, hq⟩ := Option.bind_eq_some_iff.mp h
      exact ⟨n, q, x, rfl, hx, hq⟩

/-- What lies behind a file's name or elsewhere in its folder. -/
theorem at?_file (q : Location) :
    (Folder.file n content rest).at? (m :: q)
      = if n = m then (if q = [] then some (.file content) else none) else rest.at? (m :: q) := by
  rw [at?_cons, at?_cons, find?]
  by_cases hm : n = m <;> simp [hm, Entry.at?]

/-- What lies behind a folder's name or elsewhere in the folder around it. -/
theorem at?_folder (q : Location) :
    (Folder.folder n inner rest).at? (m :: q)
      = if n = m then inner.at? q else rest.at? (m :: q) := by
  rw [at?_cons, at?_cons, find?]
  by_cases hm : n = m <;> simp [hm, Entry.at?]

/-- A location that leads to a file does not start with a name that is not there. -/
theorem ne_of_at?_eq_file (hfree : f.find? n = none) (h : f.at? p = some (.file c)) :
    ∃ m q, p = m :: q ∧ n ≠ m := by
  obtain ⟨m, q, x, rfl, hx, -⟩ := exists_of_at?_eq_file h
  refine ⟨m, q, rfl, ?_⟩
  rintro rfl
  rw [hfree] at hx
  cases hx

/-- A location leads to the first file of a folder, or to a file among the rest. -/
theorem at?_file_eq_file_iff (hfree : rest.find? n = none) :
    (Folder.file n content rest).at? p = some (.file c) ↔
      p = [n] ∧ content = c ∨ rest.at? p = some (.file c) := by
  constructor
  · intro h
    obtain ⟨m, q, -, rfl, -, -⟩ := exists_of_at?_eq_file h
    rw [at?_file] at h
    split at h
    · rename_i hm
      split at h
      · rename_i hq
        rw [hm, hq]
        exact Or.inl ⟨rfl, Entry.file.inj (Option.some.inj h)⟩
      · cases h
    · exact Or.inr h
  · rintro (⟨rfl, rfl⟩ | h)
    · simp [at?_file]
    · obtain ⟨m, q, rfl, hm⟩ := ne_of_at?_eq_file hfree h
      rw [at?_file, if_neg hm, h]

/-- A location leads into the first folder of a folder, or to a file among the rest. -/
theorem at?_folder_eq_file_iff (hfree : rest.find? n = none) :
    (Folder.folder n inner rest).at? p = some (.file c) ↔
      (∃ q, p = n :: q ∧ inner.at? q = some (.file c)) ∨ rest.at? p = some (.file c) := by
  constructor
  · intro h
    obtain ⟨m, q, -, rfl, -, -⟩ := exists_of_at?_eq_file h
    rw [at?_folder] at h
    split at h
    · rename_i hm
      exact Or.inl ⟨q, by rw [hm], h⟩
    · exact Or.inr h
  · rintro (⟨q, rfl, h⟩ | h)
    · rw [at?_folder, if_pos rfl, h]
    · obtain ⟨m, q, rfl, hm⟩ := ne_of_at?_eq_file hfree h
      rw [at?_folder, if_neg hm, h]

/-- What is in a tree has a name, and a folder in it is a tree. -/
theorem isName_of_find? {x : Entry} (hf : f.isTree = true) (h : f.find? n = some x) :
    isName n = true ∧ ∀ inner, x = .folder inner → inner.isTree = true := by
  induction f with
  | empty => cases h
  | file m content rest ih =>
      simp only [isTree, Bool.and_eq_true] at hf
      rw [find?] at h
      split at h
      · rename_i hm
        obtain rfl := Option.some.inj h
        exact ⟨beq_iff_eq.mp hm ▸ hf.1.1, fun _ hx => by cases hx⟩
      · exact ih hf.2 h
  | folder m inner rest _ ih =>
      simp only [isTree, Bool.and_eq_true] at hf
      rw [find?] at h
      split at h
      · rename_i hm
        obtain rfl := Option.some.inj h
        refine ⟨beq_iff_eq.mp hm ▸ hf.1.1.1, fun inner' hx => ?_⟩
        obtain rfl := Entry.folder.inj hx
        exact hf.1.2
      · exact ih hf.2 h

/-- Every name on the way to a file of a tree is a name. -/
theorem isName_of_at? (hf : f.isTree = true) (h : f.at? p = some (.file c)) :
    ∀ n ∈ p, isName n = true := by
  induction p generalizing f with
  | nil => simp
  | cons n q ih =>
      obtain ⟨m, r, x, heq, hx, hrest⟩ := exists_of_at?_eq_file h
      obtain ⟨rfl, rfl⟩ := List.cons.inj heq
      obtain ⟨hn, hinner⟩ := isName_of_find? hf hx
      refine List.forall_mem_cons.mpr ⟨hn, ?_⟩
      cases x with
      | folder inner => exact ih (hinner inner rfl) hrest
      | file content =>
          rw [Entry.at?] at hrest
          split at hrest
          · rename_i hnil
            simp [hnil]
          · cases hrest

end Folder

namespace Exclusion

/-- Whether a search enters every folder on the way from `here` to what lies at `p`. -/
def Reaches (e : Exclusion) (root here p : Location) : Prop :=
  ∀ d, d ≠ [] → d <+: p → d ≠ p → e.enters root (here ++ d) = true

variable {e : Exclusion} {root here q : Location} {n : Text}

/-- Whether a folder is entered. -/
theorem enters_iff :
    e.enters root here = true ↔ here.getLastD [] ∉ ignoredFolders ∧ root ++ here ∉ e.skip ∧
      isExcluded e.rules (relativePath here) true = false := by
  simp only [enters, Bool.and_eq_true, Bool.not_eq_true', List.contains_eq_mem,
    decide_eq_false_iff_not, and_assoc]

/-- Nothing has to be entered on the way to what is in the folder itself. -/
theorem reaches_singleton : e.Reaches root here [n] := by
  intro d hd hprefix hne
  cases d with
  | nil => exact absurd rfl hd
  | cons m d =>
      obtain ⟨rfl, hnil⟩ := List.cons_prefix_cons.mp hprefix
      exact absurd (by rw [List.prefix_nil.mp hnil]) hne

/-- The folder that stands first on the way is entered, and so are those behind it. -/
theorem reaches_cons (hq : q ≠ []) :
    e.Reaches root here (n :: q) ↔
      e.enters root (here ++ [n]) = true ∧ e.Reaches root (here ++ [n]) q := by
  constructor
  · refine fun h => ⟨h [n] (List.cons_ne_nil _ _) (by simp) (by simpa using hq.symm), ?_⟩
    intro d _ hprefix hne
    have hd := h (n :: d) (List.cons_ne_nil _ _) (List.cons_prefix_cons.mpr ⟨rfl, hprefix⟩)
      (by simpa using hne)
    simpa using hd
  · rintro ⟨hfirst, hrest⟩ d hd hprefix hne
    cases d with
    | nil => exact absurd rfl hd
    | cons m d =>
        obtain rfl := (List.cons_prefix_cons.mp hprefix).1
        by_cases hnil : d = []
        · rw [hnil]
          exact hfirst
        · have hd := hrest d hnil (List.cons_prefix_cons.mp hprefix).2 (by simpa using hne)
          simpa using hd

end Exclusion

namespace Folder

/-! ### Locations that are found -/

variable {f rest inner : Folder} {n m : Text} {content c : Content} {l p here root : Location}
  {e : Exclusion}

/-- **What a search gives**: the locations of the files that it keeps and that lie behind folders
all of which it enters. -/
theorem mem_search_iff (hf : f.isTree = true) :
    l ∈ f.search e root here ↔ ∃ p, l = here ++ p ∧ (∃ c, f.at? p = some (.file c)) ∧
      e.Reaches root here p ∧ e.keeps l = true := by
  induction f generalizing here with
  | empty =>
      rw [search]
      refine ⟨fun h => (List.not_mem_nil h).elim, ?_⟩
      rintro ⟨p, -, ⟨c, hc⟩, -⟩
      obtain ⟨n, q, x, -, hx, -⟩ := exists_of_at?_eq_file hc
      cases hx
  | file n content rest ih =>
      simp only [isTree, Bool.and_eq_true, Option.isNone_iff_eq_none] at hf
      obtain ⟨⟨-, hfree⟩, hrest⟩ := hf
      rw [search, List.mem_append, ih hrest]
      simp only [at?_file_eq_file_iff hfree]
      constructor
      · rintro (h | ⟨p, rfl, ⟨c, hc⟩, hp⟩)
        · split at h
          · obtain rfl := List.mem_singleton.mp h
            exact ⟨[n], rfl, ⟨content, .inl ⟨rfl, rfl⟩⟩, Exclusion.reaches_singleton, ‹_›⟩
          · cases h
        · exact ⟨p, rfl, ⟨c, .inr hc⟩, hp⟩
      · rintro ⟨p, rfl, ⟨c, ⟨rfl, rfl⟩ | hc⟩, hp⟩
        · rw [if_pos hp.2]
          exact .inl (List.mem_singleton_self _)
        · exact .inr ⟨p, rfl, ⟨c, hc⟩, hp⟩
  | folder n inner rest ihinner ihrest =>
      simp only [isTree, Bool.and_eq_true, Option.isNone_iff_eq_none] at hf
      obtain ⟨⟨⟨-, hfree⟩, hinner⟩, hrest⟩ := hf
      rw [search, List.mem_append, ihrest hrest]
      simp only [at?_folder_eq_file_iff hfree]
      have hmore : ∀ {q c}, inner.at? q = some (.file c) → q ≠ [] := fun hq hnil => by
        obtain ⟨_, _, -, heq, -⟩ := exists_of_at?_eq_file hq
        exact List.cons_ne_nil _ _ (heq.symm.trans hnil)
      constructor
      · rintro (h | ⟨p, rfl, ⟨c, hc⟩, hp⟩)
        · split at h
          · obtain ⟨q, rfl, ⟨c, hc⟩, hreaches, hkeeps⟩ := (ihinner hinner).mp h
            refine ⟨n :: q, by simp, ⟨c, .inl ⟨q, rfl, hc⟩⟩, ?_, hkeeps⟩
            exact (Exclusion.reaches_cons (hmore hc)).mpr ⟨‹_›, hreaches⟩
          · cases h
        · exact ⟨p, rfl, ⟨c, .inr hc⟩, hp⟩
      · rintro ⟨p, rfl, ⟨c, ⟨q, rfl, hc⟩ | hc⟩, hp⟩
        · obtain ⟨henters, hreaches⟩ := (Exclusion.reaches_cons (hmore hc)).mp hp.1
          rw [if_pos henters]
          exact .inl ((ihinner hinner).mpr ⟨q, by simp, ⟨c, hc⟩, hreaches, hp.2⟩)
        · exact .inr ⟨p, rfl, ⟨c, hc⟩, hp⟩

/-- What lies behind a name that is not in a folder is not found there. -/
theorem notMem_search (hf : f.isTree = true) (hfree : f.find? n = none) :
    here ++ n :: p ∉ f.search e root here := by
  intro h
  obtain ⟨q, hq, ⟨c, hc⟩, -⟩ := (mem_search_iff hf).mp h
  obtain ⟨m, r, rfl, hne⟩ := ne_of_at?_eq_file hfree hc
  exact hne (List.cons.inj (List.append_cancel_left hq)).1

/-- **No location is found twice.** -/
theorem nodup_search (hf : f.isTree = true) : (f.search e root here).Nodup := by
  induction f generalizing here with
  | empty => exact List.nodup_nil
  | file n content rest ih =>
      simp only [isTree, Bool.and_eq_true, Option.isNone_iff_eq_none] at hf
      obtain ⟨⟨-, hfree⟩, hrest⟩ := hf
      rw [search]
      refine List.nodup_append'.mpr ⟨?_, ih hrest, fun l hl hl' => ?_⟩
      · split
        · exact List.nodup_singleton _
        · exact List.nodup_nil
      · split at hl
        · obtain rfl := List.mem_singleton.mp hl
          exact notMem_search hrest hfree hl'
        · cases hl
  | folder n inner rest ihinner ihrest =>
      simp only [isTree, Bool.and_eq_true, Option.isNone_iff_eq_none] at hf
      obtain ⟨⟨⟨-, hfree⟩, hinner⟩, hrest⟩ := hf
      rw [search]
      refine List.nodup_append'.mpr ⟨?_, ihrest hrest, fun l hl hl' => ?_⟩
      · split
        · exact ihinner hinner
        · exact List.nodup_nil
      · split at hl
        · obtain ⟨q, rfl, -⟩ := (mem_search_iff hinner).mp hl
          rw [List.append_assoc] at hl'
          exact notMem_search hrest hfree hl'
        · cases hl

end Folder

/-! ### Paths that are found -/

/-- **Different locations have different paths.** -/
theorem relativePath_inj {l m : Location} (hl : l ≠ []) (hm : m ≠ [])
    (hnames : ∀ n ∈ l ++ m, isName n = true) (h : relativePath l = relativePath m) : l = m := by
  have hslash : ∀ n ∈ l ++ m, '/' ∉ n := by
    intro n hn
    have hname := hnames n hn
    rw [isName, Bool.and_eq_true] at hname
    simpa using hname.2
  have hsplit : Text.splitOn '/' (Text.join ['/'] l) = Text.splitOn '/' (Text.join ['/'] m) :=
    congrArg (Text.splitOn '/') h
  rwa [Text.splitOn_join hl fun n hn => hslash n (List.mem_append_left _ hn),
    Text.splitOn_join hm fun n hn => hslash n (List.mem_append_right _ hn)] at hsplit

/-- The suffix of a kind of file. -/
def SourceKind.suffix : SourceKind → Text
  | .header => ".h"
  | .source => ".cpp"

/-- A suffix is that of a kind in any case of its letters. -/
theorem SourceKind.ofSuffix?_eq_some_iff {s : Text} {kind : SourceKind} :
    ofSuffix? s = some kind ↔ s.lower = kind.suffix := by
  rw [ofSuffix?]
  split
  · rename_i hh
    rw [beq_iff_eq.mp hh]
    cases kind <;> decide
  · rename_i hh
    split
    · rename_i hc
      rw [beq_iff_eq.mp hc]
      cases kind <;> decide
    · rename_i hc
      cases kind with
      | header => simpa [suffix] using hh
      | source => simpa [suffix] using hc

/-- **Whether a search may find a file** below a folder that lies at `root`: none of the folders on
the way to it has a name that is never searched, lies at one of the locations in `skip`, or is
excluded by a pattern, and no pattern excludes the file. -/
structure IsAllowed (patterns : List Text) (skip : List Location) (root : Location) (f : Folder)
    (l : Location) : Prop where
  file : ∃ content, f.at? l = some (.file content)
  folders : ∀ d, d ≠ [] → d <+: l → d ≠ l →
    d.getLastD [] ∉ ignoredFolders ∧ root ++ d ∉ skip ∧
      isExcluded (ExcludeRule.ofPatterns patterns) (relativePath d) true = false
  kept : isExcluded (ExcludeRule.ofPatterns patterns) (relativePath l) false = false

/-- **Whether paths are those that a search may find**: the paths of all files with the given suffix
that it may find, each once and in order. -/
structure Finds (patterns : List Text) (skip : List Location) (root : Location) (f : Folder)
    (suffix : Text) (paths : List Text) : Prop where
  mem_iff : ∀ path, path ∈ paths ↔ ∃ l, IsAllowed patterns skip root f l ∧
    path = relativePath l ∧ (Path.suffix path).lower = suffix
  nodup : paths.Nodup
  sorted : paths.Pairwise fun a b => Text.precedes a b = true

section

variable {patterns patterns' : List Text} {skip skip' : List Location} {root : Location}
  {f : Folder}
  {l : Location} {suffix : Text} {paths paths' : List Text}

/-- What a search gives is what it may find. -/
theorem mem_search_iff_isAllowed (hf : f.isTree = true) :
    l ∈ f.search ⟨ExcludeRule.ofPatterns patterns, skip⟩ root [] ↔
      IsAllowed patterns skip root f l := by
  rw [Folder.mem_search_iff hf]
  constructor
  · rintro ⟨p, rfl, hfile, hreaches, hkeeps⟩
    refine ⟨hfile, fun d hd hprefix hne => ?_, by simpa [Exclusion.keeps] using hkeeps⟩
    exact Exclusion.enters_iff.mp (hreaches d hd hprefix hne)
  · rintro ⟨hfile, hfolders, hkept⟩
    refine ⟨l, rfl, hfile, fun d hd hprefix hne => ?_, by simp [Exclusion.keeps, hkept]⟩
    exact Exclusion.enters_iff.mpr (hfolders d hd hprefix hne)

/-- No path is found twice. -/
theorem nodup_paths (hf : f.isTree = true) (e : Exclusion) :
    ((f.search e root []).map relativePath).Nodup := by
  refine (Folder.nodup_search hf).map_on fun l hl m hm h => ?_
  obtain ⟨p, rfl, ⟨c, hc⟩, -⟩ := (Folder.mem_search_iff hf).mp hl
  obtain ⟨q, rfl, ⟨d, hd⟩, -⟩ := (Folder.mem_search_iff hf).mp hm
  have hne : ∀ {p c}, f.at? p = some (.file c) → p ≠ [] := by
    intro p c h
    obtain ⟨n, q, x, rfl, -⟩ := Folder.exists_of_at?_eq_file h
    exact List.cons_ne_nil _ _
  refine relativePath_inj (hne hc) (hne hd) (fun n hn => ?_) h
  rcases List.mem_append.mp hn with hn | hn
  · exact Folder.isName_of_at? hf hc n hn
  · exact Folder.isName_of_at? hf hd n hn

/-- **The paths of one kind are those that may be found.** -/
theorem finds_ofKind (hf : f.isTree = true) (kind : SourceKind) :
    Finds patterns skip root f kind.suffix (SourceFiles.ofKind kind
      ((f.search ⟨ExcludeRule.ofPatterns patterns, skip⟩ root []).map relativePath)) where
  mem_iff := by
    intro path
    simp only [SourceFiles.ofKind, List.mem_mergeSort, List.mem_filter, List.mem_map, beq_iff_eq,
      SourceKind.ofSuffix?_eq_some_iff, mem_search_iff_isAllowed hf]
    constructor
    · rintro ⟨⟨l, hl, rfl⟩, hsuffix⟩
      exact ⟨l, hl, rfl, hsuffix⟩
    · rintro ⟨l, hl, rfl, hsuffix⟩
      exact ⟨⟨l, hl, rfl⟩, hsuffix⟩
  nodup := (List.mergeSort_perm _ _).nodup_iff.mpr ((nodup_paths hf _).filter _)
  sorted := by
    rw [SourceFiles.ofKind]
    refine List.pairwise_mergeSort (fun a b c hab hbc => ?_) (fun a b => ?_) _
    · exact Text.precedes_trans hab hbc
    · exact Text.precedes_total a b

/-- With more patterns and more locations that are skipped, no more files may be found. -/
theorem IsAllowed.mono (hpatterns : patterns ⊆ patterns') (hskip : skip ⊆ skip')
    (h : IsAllowed patterns' skip' root f l) : IsAllowed patterns skip root f l := by
  have hrules : ∀ path isFolder,
      isExcluded (ExcludeRule.ofPatterns patterns') path isFolder = false →
      isExcluded (ExcludeRule.ofPatterns patterns) path isFolder = false := by
    intro path isFolder hnone
    rw [isExcluded, List.any_eq_false] at hnone ⊢
    exact fun r hr => hnone r (List.filterMap_subset _ hpatterns hr)
  refine ⟨h.file, fun d hd hprefix hne => ?_, hrules _ _ h.kept⟩
  obtain ⟨hname, hnone, hexcluded⟩ := h.folders d hd hprefix hne
  exact ⟨hname, fun hmem => hnone (hskip hmem), hrules _ _ hexcluded⟩

/-- Then the paths are some of those from before, in the same order. -/
theorem Finds.sublist (hpatterns : patterns ⊆ patterns') (hskip : skip ⊆ skip')
    (h : Finds patterns skip root f suffix paths)
    (h' : Finds patterns' skip' root f suffix paths') : paths'.Sublist paths := by
  have hsubset : paths' ⊆ paths := by
    intro path hpath
    obtain ⟨l, hl, hpath, hsuffix⟩ := (h'.mem_iff path).mp hpath
    exact (h.mem_iff path).mpr ⟨l, hl.mono hpatterns hskip, hpath, hsuffix⟩
  have hantisymm : Std.Antisymm fun a b : Text => Text.precedes a b = true :=
    ⟨fun _ _ => Text.precedes_antisymm⟩
  exact List.sublist_of_subperm_of_pairwise (List.subperm_of_subset h'.nodup hsubset)
    h'.sorted h.sorted

/-- **A search finds exactly the files that it may find**, and with more patterns or more paths that
are skipped some of them, in the same order. -/
theorem finds_scanPath {top : Folder} {working : Location} {patterns skip : List Text} {path : Text}
    {f : Folder} (hf : f.isTree = true)
    (hroot : top.at? (Path.resolve working path) = some (.folder f)) :
    ∃ found, SourceFiles.scanPath top working patterns skip path
        = .ok (found, Path.resolve working path) ∧
      Finds patterns (skip.map (Path.resolve working)) (Path.resolve working path) f ".h"
        found.headers ∧
      Finds patterns (skip.map (Path.resolve working)) (Path.resolve working path) f ".cpp"
        found.sources ∧
      ∀ patterns' skip', patterns ⊆ patterns' → skip ⊆ skip' →
        ∃ less, SourceFiles.scanPath top working patterns' skip' path
            = .ok (less, Path.resolve working path) ∧
          less.headers.Sublist found.headers ∧ less.sources.Sublist found.sources := by
  have hscan : ∀ patterns skip, SourceFiles.scanPath top working patterns skip path
      = .ok (SourceFiles.scan
          ⟨ExcludeRule.ofPatterns patterns, skip.map (Path.resolve working)⟩
          (Path.resolve working path) f, Path.resolve working path) := by
    intro patterns skip
    rw [SourceFiles.scanPath, hroot]
  refine ⟨_, hscan patterns skip, finds_ofKind hf .header, finds_ofKind hf .source, ?_⟩
  intro patterns' skip' hpatterns hskip
  have hskip' := List.map_subset (Path.resolve working) hskip
  refine ⟨_, hscan patterns' skip', ?_, ?_⟩
  · exact (finds_ofKind hf .header).sublist hpatterns hskip' (finds_ofKind hf .header)
  · exact (finds_ofKind hf .source).sublist hpatterns hskip' (finds_ofKind hf .source)

end

/-- A folder with a header, a folder with a source, and one that is never searched. -/
def projectFolder : Folder :=
  .file "a.h" (.bytes []) (.folder "lib" (.file "b.cpp" (.bytes []) .empty)
    (.folder "Debug" (.file "c.h" (.bytes []) .empty) .empty))

/-- A search of the folder finds the source two levels down, but not what is in the folder that is
never searched. With a pattern for the folder on the way it finds the header alone. -/
theorem finds_project :
    ∃ found less,
      SourceFiles.scanPath (.folder "work" projectFolder .empty) [] [] [] "/work"
        = .ok (found, [("work" : Text)]) ∧
      found.headers = ["a.h"] ∧ found.sources = ["lib/b.cpp"] ∧
      SourceFiles.scanPath (.folder "work" projectFolder .empty) [] ["lib/"] [] "/work"
        = .ok (less, [("work" : Text)]) ∧
      less.headers = ["a.h"] ∧ less.sources = [] ∧
      less.headers.Sublist found.headers ∧ less.sources.Sublist found.sources := by
  have hfound : SourceFiles.scanPath (.folder "work" projectFolder .empty) [] [] [] "/work"
      = .ok (⟨["a.h"], ["lib/b.cpp"]⟩, ["work"]) := by decide +kernel
  have hpattern : SourceFiles.scanPath (.folder "work" projectFolder .empty) [] ["lib/"] [] "/work"
      = .ok (⟨["a.h"], []⟩, ["work"]) := by decide +kernel
  obtain ⟨found, hscan, -, -, hmore⟩ :=
    @finds_scanPath (.folder "work" projectFolder .empty) [] [] []
    "/work" projectFolder (by decide) (by decide)
  obtain rfl := (Prod.mk.inj (Except.ok.inj (hfound.symm.trans hscan))).1
  obtain ⟨less, hless, hheaders, hsources⟩ := hmore ["lib/"] [] (by simp) (by simp)
  obtain rfl := (Prod.mk.inj (Except.ok.inj (hpattern.symm.trans hless))).1
  exact ⟨_, _, hfound, rfl, rfl, hpattern, rfl, rfl, hheaders, hsources⟩

end Sharpen
