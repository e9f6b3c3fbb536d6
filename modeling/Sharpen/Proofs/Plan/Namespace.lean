import Mathlib.Data.List.Basic
import Mathlib.Data.List.Induction
import Sharpen.Proofs.Header.Readings
import Sharpen.Proofs.Plan.Declared
import Sharpen.Proofs.Plan.Sections
import Sharpen.Settings.Basic

/-!
# The Namespace of a Part

A file is in the namespace of one header: the header it is named after, or else that of the first
part that was put there. A part of a type whose file is in a foreign namespace goes to a file of its
own, but nobody looks whether that file is in a foreign namespace, too. This module says for every
part of every plan whether it is in the namespace of its type.

Files are made while types are laid out, and the first part that a file gets binds it. The invariant
says of every file which header it is bound to and how each of its parts got there. There are three
ways, and a part goes astray in one of them only: when its bodies are in a file of a foreign
namespace and the replacement is in one, too. The condition on the plan is read off the files alone.

## Main definitions

* `Section.PlacedIn` — the three ways a part can get into a file.
* `Bound` — the invariant of laying out; `Bound.update` keeps it over a change of a file and
  `bound_planFiles` gives it for all files.
* `Plan.stemOf` — the header that a file is bound to, read off the plan.
* `FileTable.stemOf` — the header whose namespace the file with a name is in, as far as it is known.
* `Binds` — a change of a file that adds sections, and binds the file to the header `stem` if it is
  not bound yet.

## Main results

* `FileTable.find?_update`, `FileTable.stemOf_update` — what a change of a file does to look-ups.
* `headerStem_eq_iff` — when a part is in the namespace of its type, for all headers and sources.
* `not_forall_headerStem_eq` — a part that has gone astray.
* `FileTable.stemOf_update_of_ne_nil` — a file that is bound stays bound.
* `addFragment_eq` — where a fragment is put: into the file its bodies came from, unless that is
  bound to another header.
* `find?_foldl_addHeader` — every header with types has a file, which is bound to it, and there are
  no other files yet.
* `stemOf_ofParts` — the plan says what a file is bound to.
-/

namespace Sharpen

/-! ### Looking files up -/

namespace FileTable

variable {t : FileTable} {name n : Text} {f : OutputFile → OutputFile}

/-- A file that is found is changed where it is, behind files with other names. -/
theorem update_of_find? {g : OutputFile} (h : t.find? name = some g) (f : OutputFile → OutputFile) :
    ∃ l r, t.files = l ++ g :: r ∧ (∀ k ∈ l, k.name ≠ name) ∧ g.name = name ∧
      (t.update name f).files = l ++ f g :: r := by
  obtain ⟨hname, l, r, hfiles, hbefore⟩ := List.find?_eq_some_iff_append.mp h
  have hne : ∀ k ∈ l, k.name ≠ name := by simpa using hbefore
  have hindex : t.files.findIdx? (·.name == name) = some l.length := by
    have hnone : l.findIdx? (·.name == name) = none :=
      List.findIdx?_eq_none_iff.mpr (by simpa using hne)
    rw [hfiles, List.findIdx?_append, hnone, List.findIdx?_cons, if_pos hname]
    simp
  refine ⟨l, r, hfiles, hne, by simpa using hname, ?_⟩
  rw [update, hindex]
  dsimp only
  rw [hfiles, List.modify_eq_take_cons_drop (by simp), List.take_left]
  simp

/-- A change of a file reports nothing. -/
theorem notices_update (t : FileTable) (name : Text) (f : OutputFile → OutputFile) :
    (t.update name f).notices = t.notices := by
  rw [update]
  split
  · rfl
  · rfl

/-- **What is found after a change**: the changed file, or a new one, under its name, and under all
other names what was found before. -/
theorem find?_update (t : FileTable) (name : Text) (hname : ∀ g, (f g).name = g.name) (n : Text) :
    (t.update name f).find? n
      = if n = name then some (f ((t.find? name).getD { name := name })) else t.find? n := by
  have hskip : ∀ (g : OutputFile) r, g.name = name → n ≠ name →
      (g :: r).find? (·.name == n) = r.find? (·.name == n) := by
    rintro g r rfl hn
    exact List.find?_cons_of_neg (by simpa using hn.symm)
  cases hfind : t.find? name with
  | none =>
      have hnone : t.files.findIdx? (·.name == name) = none :=
        List.findIdx?_eq_none_iff.mpr (by simpa [find?] using hfind)
      rw [update, hnone, Option.getD_none]
      rw [find?] at hfind
      dsimp only [find?]
      rw [List.find?_append]
      split
      · rename_i heq
        rw [heq, hfind, Option.none_or, List.find?_cons_of_pos (by simp [hname])]
      · rename_i heq
        rw [hskip _ _ (hname _) heq, List.find?_nil, Option.or_none]
  | some g =>
      obtain ⟨l, r, hfiles, hbefore, hg, hafter⟩ := update_of_find? hfind f
      rw [find?, hafter, List.find?_append, Option.getD_some]
      split
      · rename_i heq
        have hnone : l.find? (·.name == n) = none :=
          List.find?_eq_none.mpr fun k hk => by simpa [heq] using hbefore k hk
        rw [hnone, Option.none_or, List.find?_cons_of_pos (by simp [hname, hg, heq])]
      · rename_i heq
        rw [find?, hfiles, List.find?_append, hskip _ _ hg heq,
          hskip _ _ ((hname g).trans hg) heq]

/-- The header whose namespace the file with a name is in, as far as it is known. -/
def stemOf (t : FileTable) (name : Text) : Text :=
  ((t.find? name).map OutputFile.headerStem).getD []

/-- Adds a report. -/
def report (t : FileTable) (notice : PlanNotice) : FileTable :=
  { t with notices := t.notices ++ [notice] }

/-- A report binds no file. -/
theorem stemOf_report (t : FileTable) (notice : PlanNotice) (n : Text) :
    (t.report notice).stemOf n = t.stemOf n := rfl

end FileTable

/-- There is nothing to fall back on. -/
theorem nonemptyOr_nil (a : Text) : nonemptyOr a [] = a := by
  cases a with
  | nil => rfl
  | cons c r => rfl

/-- A change of a file that adds sections, and binds the file to the header `stem` if it is not
bound yet. -/
structure Binds (more : List Section) (stem : Text) (f : OutputFile → OutputFile) : Prop where
  name : ∀ g, (f g).name = g.name
  sections : ∀ g, (f g).sections = g.sections ++ more
  stem : ∀ g, (f g).headerStem = nonemptyOr g.headerStem stem

section

variable {t : FileTable} {n stem : Text} {more : List Section} {f : OutputFile → OutputFile}

/-- What such a change binds. -/
theorem FileTable.stemOf_update (t : FileTable) (name : Text) (hf : Binds more stem f) (n : Text) :
    (t.update name f).stemOf n
      = if n = name then nonemptyOr (t.stemOf name) stem else t.stemOf n := by
  rw [stemOf, find?_update t name hf.name]
  split
  · rw [Option.map_some, Option.getD_some, hf.stem, stemOf]
    cases t.find? name with
    | none => rfl
    | some g => rfl
  · rfl

/-- **A file that is bound stays bound.** -/
theorem FileTable.stemOf_update_of_ne_nil (name : Text) (hf : Binds more stem f)
    (hn : t.stemOf n ≠ []) : (t.update name f).stemOf n = t.stemOf n := by
  rw [stemOf_update t name hf]
  split
  · rename_i heq
    subst heq
    rw [nonemptyOr, if_neg (by simpa using hn)]
  · rfl

end

/-- The header that sections bind a file to: that of the first one whose type has a header. -/
def sectionsStem (sections : List Section) : Text :=
  ((sections.map fun s => s.type.file).find? fun stem => !stem.isEmpty).getD []

/-- Later sections bind a file only if earlier ones have not. -/
theorem sectionsStem_append (l r : List Section) :
    sectionsStem (l ++ r) = nonemptyOr (sectionsStem l) (sectionsStem r) := by
  rw [sectionsStem, List.map_append, List.find?_append, sectionsStem]
  cases hfind : (l.map fun s => s.type.file).find? fun stem => !stem.isEmpty with
  | none => rfl
  | some stem =>
      have hne : stem.isEmpty = false := by simpa using List.find?_some hfind
      rw [Option.some_or, Option.getD_some, nonemptyOr, hne]
      rfl

/-- One section binds a file to the header of its type. -/
theorem sectionsStem_singleton (s : Section) : sectionsStem [s] = s.type.file := by
  rw [sectionsStem, List.map_singleton, List.find?_singleton]
  cases s.type.file with
  | nil => rfl
  | cons c r => rfl

/-! ### The invariant -/

/-- The file for a fragment that cannot go where its bodies came from. -/
def TypeDecl.asideName (d : TypeDecl) (target : Text) : Text :=
  target ++ "_" ++ d.name

/-- What putting a fragment into a file does to the file. -/
def TypeDecl.joinFragment (d : TypeDecl) (target : Text) (f : OutputFile) : OutputFile :=
  { f with
    headerStem := nonemptyOr f.headerStem d.file
    sections := f.sections ++ [d.fragment target] }

/-- **Where a fragment is put**: into the file its bodies came from, unless that is bound to another
header. -/
theorem addFragment_eq (d : TypeDecl) (t : FileTable) (target : Text) :
    addFragment d t target
      = if t.stemOf target = [] ∨ t.stemOf target = d.file then
          t.update target (d.joinFragment target)
        else
          (t.report (.fragmentMoved d.name target (d.asideName target) d.file)).update
            (d.asideName target) (d.joinFragment target) := by
  have hfree : ((t.find? target).all fun f => f.headerStem.isEmpty || f.headerStem == d.file) = true
      ↔ t.stemOf target = [] ∨ t.stemOf target = d.file := by
    rw [FileTable.stemOf]
    cases t.find? target with
    | none => simp
    | some f => simp
  rw [addFragment]
  by_cases h : t.stemOf target = [] ∨ t.stemOf target = d.file
  · rw [if_pos h, hfree.mpr h]
    rfl
  · rw [if_neg h, Bool.eq_false_iff.mpr (mt hfree.mp h)]
    rfl

/-- **How a part got into the file** `name`: it is the main part of its type, or a fragment in the
file its bodies came from, which is bound to the header of its type, or a fragment that was put
aside, with a report, since that file is bound to another header. -/
inductive Section.PlacedIn (t : FileTable) (name : Text) : Section → Prop
  | main (d : TypeDecl) (home : name = d.file) : PlacedIn t name d.mainPart
  | fragment (d : TypeDecl) (foreign : name ∈ d.foreignFiles)
      (bound : d.file = [] ∨ t.stemOf name = d.file) : PlacedIn t name (d.fragment name)
  | aside (d : TypeDecl) {target : Text} (foreign : target ∈ d.foreignFiles)
      (moved : name = d.asideName target) (bound : t.stemOf target ≠ [])
      (other : t.stemOf target ≠ d.file)
      (reported : .fragmentMoved d.name target name d.file ∈ t.notices) :
      PlacedIn t name (d.fragment target)

/-- Binding more files and reporting more leaves a part where it is. -/
theorem Section.PlacedIn.mono {t u : FileTable} {name : Text} {s : Section}
    (h : s.PlacedIn t name) (hstem : ∀ n, t.stemOf n ≠ [] → u.stemOf n = t.stemOf n)
    (hnotices : ∀ n ∈ t.notices, n ∈ u.notices) : s.PlacedIn u name := by
  cases h with
  | main d home => exact .main d home
  | fragment d foreign bound =>
      refine .fragment d foreign ?_
      by_cases hfile : d.file = []
      · exact Or.inl hfile
      · have hbound := bound.resolve_left hfile
        exact Or.inr ((hstem name (hbound ▸ hfile)).trans hbound)
  | aside d foreign moved bound other reported =>
      have hsame := hstem _ bound
      exact .aside d foreign moved (hsame ▸ bound) (hsame ▸ other) (hnotices _ reported)

/-- **The invariant of laying out types** of headers called `stems`: files called like a header are
bound to it, all others to the header of their first section, and every section has got where it is
in one of the three ways. -/
structure Bound (stems : List Text) (t : FileTable) : Prop where
  home : ∀ n ∈ stems, (t.find? n).isSome = true ∧ t.stemOf n = n
  joined : ∀ n f, t.find? n = some f → n ∉ stems → f.headerStem = sectionsStem f.sections
  placed : ∀ n f, t.find? n = some f → ∀ s ∈ f.sections, s.PlacedIn t n

namespace Bound

variable {stems : List Text} {t : FileTable} {name stem : Text} {more : List Section}
  {f : OutputFile → OutputFile}

/-- **A change that binds a file to the header of its new sections keeps the invariant.** -/
theorem update (hb : Bound stems t) (hf : Binds more stem f) (hempty : name = [] → stem = [])
    (hjoined : name ∉ stems → stem = sectionsStem more)
    (hmore : ∀ s ∈ more, s.PlacedIn (t.update name f) name) :
    Bound stems (t.update name f) := by
  have hstay : ∀ n (s : Section), s.PlacedIn t n → s.PlacedIn (t.update name f) n := fun n s hs =>
    hs.mono (fun _ hn => FileTable.stemOf_update_of_ne_nil name hf hn)
      fun _ hn => t.notices_update name f ▸ hn
  have hfind := FileTable.find?_update t name hf.name
  refine ⟨fun n hn => ⟨?_, ?_⟩, fun n g hg hn => ?_, fun n g hg => ?_⟩
  · rw [hfind]
    split
    · rfl
    · exact (hb.home n hn).1
  · have hold := (hb.home n hn).2
    rw [FileTable.stemOf_update t name hf]
    split
    · rename_i heq
      subst heq
      rw [hold, nonemptyOr]
      split
      · rename_i hnil
        have hnil : n = [] := List.isEmpty_iff.mp hnil
        rw [hempty hnil, hnil]
      · rfl
    · exact hold
  · rw [hfind] at hg
    split at hg
    · rename_i heq
      subst heq
      obtain rfl := Option.some.inj hg
      rw [hf.stem, hf.sections, sectionsStem_append, hjoined hn]
      congr 1
      cases hold : t.find? n with
      | none => rfl
      | some g => exact hb.joined n g hold hn
    · exact hb.joined n g hg hn
  · rw [hfind] at hg
    split at hg
    · rename_i heq
      subst heq
      obtain rfl := Option.some.inj hg
      intro s hs
      rw [hf.sections] at hs
      rcases List.mem_append.mp hs with hs | hs
      · cases hold : t.find? n with
        | none => simp [hold] at hs
        | some g => exact hstay n s (hb.placed n g hold s (by simpa [hold] using hs))
      · exact hmore s hs
    · exact fun s hs => hstay n s (hb.placed n g hg s hs)

/-- A report keeps the invariant. -/
theorem report (hb : Bound stems t) (notice : PlanNotice) :
    Bound stems (t.report notice) :=
  ⟨hb.home, hb.joined, fun n g hg s hs => (hb.placed n g hg s hs).mono (fun _ _ => rfl)
    fun _ hn => List.mem_append_left _ hn⟩

/-- A run of steps keeps the invariant if every step does. -/
theorem foldl {α : Type} {step : FileTable → α → FileTable} {l : List α}
    (hstep : ∀ t, ∀ a ∈ l, Bound stems t → Bound stems (step t a)) (hb : Bound stems t) :
    Bound stems (l.foldl step t) :=
  List.foldlRecOn (motive := Bound stems) l step hb fun t ht a ha => hstep t a ha ht

/-! ### Laying out -/

/-- **A fragment keeps the invariant**, whether it goes where its bodies came from or not. -/
theorem addFragment (hb : Bound stems t) (d : TypeDecl) {target : Text}
    (htarget : target ∈ d.foreignFiles) : Bound stems (addFragment d t target) := by
  have hnonempty : target ≠ [] := by
    rintro rfl
    have hhome := (TypeDecl.mem_foreignFiles.mp htarget).1
    simp [TypeDecl.isAtHome] at hhome
  have hbinds : Binds [d.fragment target] d.file (d.joinFragment target) :=
    ⟨fun _ => rfl, fun _ => rfl, fun _ => rfl⟩
  have hjoined : d.file = sectionsStem [d.fragment target] :=
    (sectionsStem_singleton (d.fragment target)).symm
  rw [addFragment_eq]
  split
  · rename_i hfree
    refine hb.update hbinds (fun h => absurd h hnonempty) (fun _ => hjoined) fun s hs => ?_
    obtain rfl := List.mem_singleton.mp hs
    refine .fragment d htarget (Or.inr ?_)
    rw [FileTable.stemOf_update t target hbinds, if_pos rfl]
    rcases hfree with h | h
    · rw [h]
      rfl
    · rw [h, nonemptyOr, ite_self]
  · rename_i htaken
    rw [not_or] at htaken
    have haside : d.asideName target ≠ [] := by simp [TypeDecl.asideName, hnonempty]
    refine (hb.report _).update hbinds (fun h => absurd h haside) (fun _ => hjoined) fun s hs => ?_
    obtain rfl := List.mem_singleton.mp hs
    rw [← t.stemOf_report (.fragmentMoved d.name target (d.asideName target) d.file)] at htaken
    have hstem := FileTable.stemOf_update_of_ne_nil (d.asideName target) hbinds htaken.1
    refine .aside d htarget rfl (hstem ▸ htaken.1) (hstem ▸ htaken.2) ?_
    rw [FileTable.notices_update]
    exact List.mem_append_right _ (List.mem_singleton_self _)

/-- **A type keeps the invariant** if its header is among the headers. -/
theorem addType (hb : Bound stems t) {d : TypeDecl} (hfile : d.file ∈ stems) :
    Bound stems (addType t d) := by
  have hmain : Bound stems (t.addSection d.file d.mainPart) := by
    have hbinds : Binds [d.mainPart] [] fun f =>
        { f with sections := f.sections ++ [d.mainPart] } :=
      ⟨fun _ => rfl, fun _ => rfl, fun g => (nonemptyOr_nil g.headerStem).symm⟩
    refine hb.update hbinds (fun _ => rfl) (fun h => absurd hfile h) fun s hs => ?_
    obtain rfl := List.mem_singleton.mp hs
    exact .main d rfl
  rw [Sharpen.addType]
  by_cases hsplit : isSplit d = true
  · have hall := hmain.foldl fun t target htarget ht => ht.addFragment d htarget
    simp only [TypeDecl.mainPart, hsplit, if_true] at hall ⊢
    exact hall
  · simp only [TypeDecl.mainPart, hsplit, Bool.false_eq_true, if_false] at hmain ⊢
    exact hmain

/-- What a source brings to the files binds none. -/
theorem addSource (hb : Bound stems t) (s : Source) : Bound stems (addSource t s) := by
  have hsame : ∀ {u : FileTable} {f : OutputFile → OutputFile}, Bound stems u →
      (∀ g, (f g).name = g.name) → (∀ g, (f g).sections = g.sections) →
      (∀ g, (f g).headerStem = g.headerStem) → Bound stems (u.update s.stem f) := by
    intro u f hu hname hsections hstem
    have hbinds : Binds [] [] f := by
      refine ⟨hname, fun g => ?_, fun g => ?_⟩
      · rw [hsections, List.append_nil]
      · rw [hstem, nonemptyOr_nil]
    exact hu.update hbinds (fun _ => rfl) (fun _ => rfl) (by simp)
  have hembedded : Bound stems (if s.structs.isEmpty then t
      else t.update s.stem fun f => { f with embedded := f.embedded ++ s.structs }) := by
    split
    · exact hb
    · exact hsame hb (fun _ => rfl) (fun _ => rfl) fun _ => rfl
  have hbanner : ∀ u : FileTable, Bound stems u → Bound stems (if (u.find? s.stem).isSome then
      u.update s.stem fun f => { f with banner := nonemptyOr f.banner s.banner } else u) := by
    intro u hu
    split
    · exact hsame hu (fun _ => rfl) (fun _ => rfl) fun _ => rfl
    · exact hu
  exact hbanner _ hembedded

end Bound

/-- The names of the headers that have types. -/
def headerStems (headers : List Header) : List Text :=
  (headers.filter fun h => !h.types.isEmpty).map Header.stem

/-- **Every header with types has a file**, which is bound to it, and there are no other files
yet. -/
theorem find?_foldl_addHeader (headers : List Header) (n : Text) :
    (((headers.foldl addHeader {}).find? n).isSome = true ↔ n ∈ headerStems headers) ∧
      ∀ f, (headers.foldl addHeader {}).find? n = some f → f.headerStem = n ∧ f.sections = [] := by
  induction headers using List.reverseRecOn with
  | nil => simp [headerStems, FileTable.find?]
  | append_singleton l h ih =>
      rw [List.foldl_concat, addHeader]
      cases hempty : h.types.isEmpty with
      | true =>
          have hstems : headerStems (l ++ [h]) = headerStems l := by simp [headerStems, hempty]
          rw [hstems]
          exact ih
      | false =>
          have hstems : headerStems (l ++ [h]) = headerStems l ++ [h.stem] := by
            simp [headerStems, hempty]
          have hfind := FileTable.find?_update
            (f := fun f => { f with headerStem := h.stem, banner := h.banner })
            (l.foldl addHeader {}) h.stem (fun _ => rfl) n
          rw [hstems, if_neg Bool.false_ne_true, hfind]
          by_cases hn : n = h.stem
          · subst hn
            rw [if_pos rfl]
            refine ⟨by simp, fun f hf => ?_⟩
            obtain rfl := Option.some.inj hf
            refine ⟨rfl, ?_⟩
            cases hold : (l.foldl addHeader {}).find? h.stem with
            | none => rfl
            | some g => exact (ih.2 g hold).2
          · rw [if_neg hn]
            refine ⟨ih.1.trans ?_, ih.2⟩
            simp [hn]

/-- The invariant holds before the types are laid out. -/
theorem bound_foldl_addHeader (headers : List Header) :
    Bound (headerStems headers) (headers.foldl addHeader {}) := by
  refine ⟨fun n hn => ?_, fun n f hf hn => ?_, fun n f hf s hs => ?_⟩
  · obtain ⟨hiff, hstem⟩ := find?_foldl_addHeader headers n
    have hsome := hiff.mpr hn
    obtain ⟨f, hf⟩ := Option.isSome_iff_exists.mp hsome
    exact ⟨hsome, by rw [FileTable.stemOf, hf, Option.map_some, Option.getD_some, (hstem f hf).1]⟩
  · have hsome := (find?_foldl_addHeader headers n).1.mp (hf ▸ rfl)
    exact absurd hsome hn
  · rw [((find?_foldl_addHeader headers n).2 f hf).2] at hs
    cases hs

/-- **All files are bound** once everything is laid out. -/
theorem bound_planFiles {r : Reconciled} (hfile : ∀ d ∈ r.types, d.file ∈ headerStems r.headers) :
    Bound (headerStems r.headers) (planFiles r) := by
  have htypes := (bound_foldl_addHeader r.headers).foldl fun t d hd ht => ht.addType (hfile d hd)
  exact htypes.foldl fun t s _ ht => ht.addSource s

/-! ### The files of a plan -/

/-- The header that the file with a name is bound to: the header of this name if it has types, else
that of the first part there. -/
def Plan.stemOf (headers : List Header) (p : Plan) (name : Text) : Text :=
  if name ∈ headerStems headers then name
  else ((p.file? name).map fun f => sectionsStem f.sections).getD []

/-- **A part in a foreign namespace**: the file it is in is bound to another header than that of its
type. Its type then has no header, or it was put aside, with a report, since the file its bodies
came from is bound to another header, too. -/
structure Section.IsAstray (headers : List Header) (p : Plan) (f : OutputFile) (s : Section) :
    Prop where
  taken : p.stemOf headers f.name ≠ s.type.file
  moved : s.type.file = [] ∨ ∃ target ∈ s.type.foreignFiles,
    s = s.type.fragment target ∧ f.name = s.type.asideName target ∧
    p.stemOf headers target ≠ s.type.file ∧
    (PlanNotice.fragmentMoved s.type.name target f.name s.type.file).message ∈ p.warnings

section

variable {headers : List Header} {sources : List Source}

/-- The names of headers with types do not depend on the order of the headers. -/
theorem mem_headerStems_headerOrder {n : Text} :
    n ∈ headerStems (headerOrder headers) ↔ n ∈ headerStems headers :=
  (((List.mergeSort_perm _ _).filter _).map _).mem_iff

/-- The header of every type of a plan has types. -/
theorem file_mem_headerStems (hheaders : ∀ h ∈ headers, ∀ d ∈ h.types, d.file = h.stem)
    {t : TypeDecl} (ht : t ∈ (Plan.ofParts headers sources).types) :
    t.file ∈ headerStems headers := by
  obtain ⟨i, d, -, hd, hafter, hmem⟩ := exists_declared_of_mem_types ht
  obtain ⟨h, hh, hd'⟩ := List.mem_flatMap.mp hmem
  obtain ⟨f, hf, hhead⟩ := exists_typesAfter hd
  obtain rfl : t = f := Option.some.inj (hafter.symm.trans hf)
  have hfile : t.file = d.file := congrArg (fun k => k.2.2.2) hhead
  rw [hfile, hheaders h hh d hd']
  refine List.mem_map_of_mem (List.mem_filter.mpr ⟨hh, ?_⟩)
  simpa using List.ne_nil_of_mem hd'

/-- A file of a plan is found in the table it was taken from. -/
theorem find?_planFiles {f : OutputFile} (hf : f ∈ (Plan.ofParts headers sources).files) :
    (planFiles (reconcileTypes headers sources)).find? f.name = some f := by
  have hmem : f ∈ (planFiles (reconcileTypes headers sources)).files :=
    List.mem_mergeSort.mp (List.mem_filter.mp hf).1
  have hnodup := (laid_planFiles (reconcileTypes headers sources)).nodup
  cases hfind : (planFiles (reconcileTypes headers sources)).find? f.name with
  | none => exact absurd (List.find?_eq_none.mp hfind f hmem) (by simp)
  | some g =>
      have hname : g.name = f.name := by simpa using List.find?_some hfind
      rw [List.inj_on_of_nodup_map hnodup (List.mem_of_find?_eq_some hfind) hmem hname]

/-- A file with sections is a file of the plan. -/
theorem mem_files_of_sections {f : OutputFile}
    (hf : f ∈ (planFiles (reconcileTypes headers sources)).files) (hsections : f.sections ≠ []) :
    f ∈ (Plan.ofParts headers sources).files :=
  List.mem_filter.mpr ⟨List.mem_mergeSort.mpr hf, by simp [hsections]⟩

/-- The files of a plan are bound. -/
theorem bound_ofParts (hheaders : ∀ h ∈ headers, ∀ d ∈ h.types, d.file = h.stem) :
    Bound (headerStems headers) (planFiles (reconcileTypes headers sources)) := by
  have hb : Bound (headerStems (headerOrder headers))
      (planFiles (reconcileTypes headers sources)) :=
    bound_planFiles fun d (hd : d ∈ (Plan.ofParts headers sources).types) =>
      mem_headerStems_headerOrder.mpr (file_mem_headerStems hheaders hd)
  refine ⟨fun n hn => ?_, fun n f hf hn => ?_, hb.placed⟩
  · exact hb.home n (mem_headerStems_headerOrder.mpr hn)
  · exact hb.joined n f hf (mt mem_headerStems_headerOrder.mp hn)

/-- **The plan says what a file is bound to.** -/
theorem stemOf_ofParts (hheaders : ∀ h ∈ headers, ∀ d ∈ h.types, d.file = h.stem) (n : Text) :
    (Plan.ofParts headers sources).stemOf headers n
      = (planFiles (reconcileTypes headers sources)).stemOf n := by
  have hb : Bound (headerStems headers) (planFiles (reconcileTypes headers sources)) :=
    bound_ofParts hheaders
  rw [Plan.stemOf]
  split
  · rename_i hn
    exact (hb.home n hn).2.symm
  · rename_i hn
    cases hfile : (Plan.ofParts headers sources).file? n with
    | some f =>
        have hname : f.name = n := by simpa using List.find?_some hfile
        have hfind := hname ▸ find?_planFiles (List.mem_of_find?_eq_some hfile)
        rw [FileTable.stemOf, hfind]
        exact (hb.joined n f hfind hn).symm
    | none =>
        rw [FileTable.stemOf]
        cases hfind : (planFiles (reconcileTypes headers sources)).find? n with
        | none => rfl
        | some g =>
            have hempty : g.sections = [] := by
              by_contra hne
              have hmem := mem_files_of_sections (List.mem_of_find?_eq_some hfind) hne
              exact absurd (List.find?_some hfind) (List.find?_eq_none.mp hfile g hmem)
            have hstem := hb.joined n g hfind hn
            rw [hempty] at hstem
            exact hstem.symm

/-- **When a part is in the namespace of its type**, for all headers whose types name them and all
sources: unless it has gone astray. The namespace that is written for the file is then that of the
header of the type, under all settings. The file of a main part is called like the header of the
type. -/
theorem headerStem_eq_iff (hheaders : ∀ h ∈ headers, ∀ d ∈ h.types, d.file = h.stem)
    {f : OutputFile} (hf : f ∈ (Plan.ofParts headers sources).files) {s : Section}
    (hs : s ∈ f.sections) :
    s.type ∈ (Plan.ofParts headers sources).types ∧
      (f.headerStem = s.type.file ↔
        ¬ s.IsAstray headers (Plan.ofParts headers sources) f) ∧
      (f.headerStem = s.type.file → s.type.file ≠ [] → ∀ settings : Settings,
        settings.scope.resolve (nonemptyOr f.headerStem f.name)
          = settings.scope.resolve s.type.file) := by
  have hfind := find?_planFiles hf
  have hstem : f.headerStem = (Plan.ofParts headers sources).stemOf headers f.name := by
    rw [stemOf_ofParts hheaders, FileTable.stemOf, hfind]
    rfl
  have htype : s.type ∈ (Plan.ofParts headers sources).types := by
    have hmem := (laid_ofParts headers sources).perm.mem_iff.mp (List.mem_flatMap.mpr ⟨f, hf, hs⟩)
    obtain ⟨d, hd, hpart⟩ := List.mem_flatMap.mp hmem
    exact TypeDecl.type_of_mem_parts hpart ▸ hd
  refine ⟨htype, ⟨fun heq hastray => ?_, fun hkept => ?_⟩, fun heq hne settings => ?_⟩
  · exact hastray.taken (hstem.symm.trans heq)
  · by_contra hne
    refine hkept ⟨hstem ▸ hne, ?_⟩
    cases (bound_ofParts hheaders).placed f.name f hfind s hs with
    | main d home =>
        have hhome : (Plan.ofParts headers sources).stemOf headers f.name = f.name :=
          if_pos (home ▸ file_mem_headerStems hheaders htype)
        exact absurd (hstem.trans (hhome.trans home)) hne
    | fragment d foreign bound =>
        rw [← stemOf_ofParts hheaders, ← hstem] at bound
        exact bound.imp_right fun h => absurd h hne
    | aside d foreign moved bound other reported =>
        rw [← stemOf_ofParts hheaders] at other
        refine Or.inr ⟨_, foreign, rfl, moved, other, ?_⟩
        refine List.mem_map.mpr ⟨_, List.mem_filter.mpr ⟨?_, rfl⟩, rfl⟩
        exact List.mem_append_right _ reported
  · rw [heq, nonemptyOr, if_neg (by simpa using hne)]

end

/-! ### A part that was put aside -/

/-- A class with a method that is defined in the header and one that is not. -/
def shapeText : Text :=
  "class Shape\n\x7b\n    void grow() \x7b step(); \x7d\n    void log();\n\x7d;\n"

/-- The header of this class, and headers with one empty class each. -/
def shapeHeaders (others : List Text) : List Header :=
  (parseHeader shapeText "Shape.h").1 ::
    others.map fun n => (parseHeader ("class " ++ n ++ "\n\x7b\n\x7d;\n") (n ++ ".h")).1

/-- A source that implements the other method of the class. -/
def logSource : Source :=
  (parseSource "void Shape::log()\n\x7b\n    trace();\n\x7d\n" "Util.cpp").1

/-- All these headers are read from texts. -/
theorem exists_text_shapeHeaders (others : List Text) :
    ∀ h ∈ shapeHeaders others, ∃ text path, h = (parseHeader text path).1 := by
  intro h hh
  rcases List.mem_cons.mp hh with rfl | hh
  · exact ⟨_, _, rfl⟩
  · obtain ⟨n, -, rfl⟩ := List.mem_map.mp hh
    exact ⟨_, _, rfl⟩

/-- The part of a class that is implemented in the source of another header is put aside, where it
is in the namespace of the class. -/
theorem headerStem_eq_aside :
    ∃ f ∈ (Plan.ofParts (shapeHeaders ["Util"]) [logSource]).files, ∃ s ∈ f.sections,
      s.isMain = false ∧ f.name = s.type.asideName "Util" ∧ f.headerStem = s.type.file := by
  have hheaders : ∀ h ∈ shapeHeaders ["Util"], ∀ d ∈ h.types, d.file = h.stem := by
    intro h hh d hd
    obtain ⟨text, path, rfl⟩ := exists_text_shapeHeaders _ h hh
    exact (isDeclaredIn_parseHeader text path d hd).file
  have hsort : (shapeHeaders ["Util"]).mergeSort (fun a b => Text.precedes a.stem b.stem)
      = shapeHeaders ["Util"] := by
    refine List.mergeSort_of_pairwise ?_
    decide +kernel
  have htable : ∃ f ∈ (planFiles (reconcileTypes (shapeHeaders ["Util"]) [logSource])).files,
      ∃ s ∈ f.sections, s.isMain = false ∧ f.name = s.type.asideName "Util" ∧
        (planFiles (reconcileTypes (shapeHeaders ["Util"]) [logSource])).stemOf f.name
          = s.type.file := by
    rw [reconcileTypes]
    dsimp only
    rw [hsort]
    decide +kernel
  obtain ⟨f, hf, s, hs, hmain, hname, hstem⟩ := htable
  have hfile := mem_files_of_sections hf (List.ne_nil_of_mem hs)
  refine ⟨f, hfile, s, hs, hmain, hname, ?_⟩
  refine (headerStem_eq_iff hheaders hfile hs).2.1.mpr fun hastray => hastray.taken ?_
  rw [stemOf_ofParts hheaders, hstem]

/-- **A part can go astray**: not for all headers and sources that are read from texts are all parts
of a type in the namespace of its header. -/
theorem not_forall_headerStem_eq :
    ¬ ∀ (headers : List Header) (sources : List Source),
      (∀ h ∈ headers, ∃ text path, h = (parseHeader text path).1) →
      (∀ s ∈ sources, ∃ text path, s = (parseSource text path).1) →
      ∀ t ∈ (Plan.ofParts headers sources).types, ∀ f ∈ (Plan.ofParts headers sources).files,
        (∃ s ∈ f.sections, s.type = t) → f.headerStem = t.file := by
  intro hall
  have hstays := hall (shapeHeaders ["Util", "Util_Shape"]) [logSource]
    (exists_text_shapeHeaders _) (fun _ hs => ⟨_, _, List.mem_singleton.mp hs⟩)
  have hsort : (shapeHeaders ["Util", "Util_Shape"]).mergeSort
      (fun a b => Text.precedes a.stem b.stem) = shapeHeaders ["Util", "Util_Shape"] := by
    refine List.mergeSort_of_pairwise ?_
    decide +kernel
  have htable : ∃ t ∈ (reconcileTypes (shapeHeaders ["Util", "Util_Shape"]) [logSource]).types,
      ∃ f ∈ (planFiles (reconcileTypes (shapeHeaders ["Util", "Util_Shape"]) [logSource])).files,
      (∃ s ∈ f.sections, s.type = t) ∧ f.headerStem ≠ t.file := by
    rw [reconcileTypes]
    dsimp only
    rw [hsort]
    decide +kernel
  obtain ⟨t, ht, f, hf, ⟨s, hs, htype⟩, hne⟩ := htable
  exact hne (hstays t ht f (mem_files_of_sections hf (List.ne_nil_of_mem hs)) ⟨s, hs, htype⟩)

end Sharpen
