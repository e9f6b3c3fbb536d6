import Mathlib.Data.List.Basic
import Sharpen.Proofs.Header.Order
import Sharpen.Proofs.Text.Results
import Sharpen.Source.Scan

/-!
# What Every Method of a Source Has

However a method is found in a source file, it is read in one way: as a definition with a body. What
happens to it afterwards is little: it may become a local function, it gets a number, and region
markers are attached to it. So a property of all definitions that survives these changes holds of
every implementation and every local function of the file.

The property is shown to hold of whatever a definition is read as, and to survive the three changes.
The passes are then folds over the matches of their readers, in which each match adds one definition
or none. That the name of a method has only certain characters is known from the readers, and is
used where names are compared with those of types.

## Main definitions

* `Definition.IsFound` — what is known of a definition on a page.
* `SourcePage.regionLines` — the region markers at file scope.
* `Readable` — a property of all definitions that survives.
* `Method.asLocal` — a definition as it is kept if it is a free function.
* `isMethodNameChar` — the characters of the name of a method.

## Main results

* `SourceScan.fst_define` — what such a definition is read as.
* `takeImplementation_cases`, `recoverImplementation_cases`, `takeFreeFunction_cases` — what one
  step of the passes over a source file takes.
* `forall_mem_attachRegions` — properties that region markers leave alone.
* `forall_mem_parseSource` — it holds of all methods that are read from a source file.
-/

namespace Sharpen

/-- A definition as it is kept if it is a free function. -/
def Method.asLocal (m : Method) : Method :=
  { m with isLocal := true, isStatic := true, visibility := .priv }

/-- The characters of the name of a method. -/
def isMethodNameChar (c : Char) : Bool :=
  isWord c || c == '~'

/-- What is known of a definition that is found on a page: its name consists of word characters,
perhaps with a `~`, and its parameters are cut out of the text. -/
structure Definition.IsFound (page : SourcePage) (d : Definition) : Prop where
  name : ∀ c ∈ d.name, isMethodNameChar c = true
  parameters : ∃ i j, d.parameters = page.text.slice i j

/-- The region markers of a page that stand at file scope. -/
def SourcePage.regionLines (page : SourcePage) : List RegionLine :=
  (regionLine.findAll page.masked).filter fun r => page.atFileScope r.start

/-- The text that a marker leaves with a method. -/
def RegionLine.marker (r : RegionLine) (page : SourcePage) : Text :=
  let name := Text.trim (page.text.slice r.nameSpan.1 r.nameSpan.2)
  (if r.opens then ("#region" : Text) else "#endregion") ++ if name.isEmpty then [] else ' ' :: name

/-- **What a definition is read as**: a method with the comment above it and the body behind its
brace. -/
theorem SourceScan.fst_define (s : SourceScan) (page : SourcePage) (d : Definition) :
    (s.define page d).1 =
      { name := d.name
        returnType := normalizeType (Text.join " " (headWords d.head))
        parameters := parseParameters d.parameters
        isConst := d.isConst
        isConstructor := !d.name.startsWith "~" && d.name == d.owner &&
          (normalizeType (Text.join " " (headWords d.head))).isEmpty
        isDestructor := d.name.startsWith "~"
        initializers := parseInitializers d.initializers
        body := some (normalizeBlock (page.text.slice (d.brace + 1)
          ((matchingAt? '\x7b' '\x7d' page.masked d.brace).getD page.text.length))).1
        bodyIndent := (normalizeBlock (page.text.slice (d.brace + 1)
          ((matchingAt? '\x7b' '\x7d' page.masked d.brace).getD page.text.length))).2
        owner := d.owner
        targetFile := page.stem
        originFile := page.stem
        position := d.start
        sourceComments := (collectComments page.lines (page.lineOf d.start) s.claimed).lines
        sourceCommentIndent :=
          (collectComments page.lines (page.lineOf d.start) s.claimed).indent } := by
  unfold SourceScan.define
  dsimp only
  generalize normalizeBlock _ = block
  split <;> rfl

/-- It takes the text from its start to the end of its body. -/
theorem SourceScan.spans_define (s : SourceScan) (page : SourcePage) (d : Definition) :
    (s.define page d).2.spans = s.spans ++
      [(d.start, (matchingAt? '\x7b' '\x7d' page.masked d.brace).getD page.text.length + 1)] := by
  unfold SourceScan.define
  dsimp only
  split <;> rfl

/-- A property of methods that every definition on a page has, and that no later change takes
away. -/
structure Readable (page : SourcePage) (P : Method → Prop) : Prop where
  define : ∀ (s : SourceScan) (d : Definition), d.IsFound page → P (s.define page d).1
  asLocal : ∀ m, P m → P m.asLocal
  number : ∀ m n, P m → P { m with order := n }
  regionStart : ∀ m, ∀ r ∈ page.regionLines, P m → P { m with sourceRegionStart := r.marker page }
  regionEnd : ∀ m, ∀ r ∈ page.regionLines, P m → P { m with sourceRegionEnd := r.marker page }

/-! ### Names -/

/-- What an identifier starts with is a word character. -/
theorem isWord_of_isIdentStart {c : Char} (h : isIdentStart c = true) : isWord c = true := by
  rcases Bool.or_eq_true_iff.mp h with h | h
  · have hascii : c.toNat < 128 := by
      have hcase : c.isUpper = true ∨ c.isLower = true := Bool.or_eq_true_iff.mp h
      have hval : c.toNat = c.val.toNat := rfl
      rcases hcase with h | h
      · have : c.val.toNat ≤ 90 := (of_decide_eq_true h).2
        omega
      · have : c.val.toNat ≤ 122 := of_decide_eq_true (Bool.and_eq_true_iff.mp h).2
        omega
    exact isWord_of_isAlphanum (by simp [Char.isAlphanum, h]) hascii
  · obtain rfl := beq_iff_eq.mp h
    decide

section

variable {I : Track}

/-- The name of a method has nothing but the characters of such names. -/
theorem gives_methodIdent :
    methodIdent.Gives I fun name => ∀ c ∈ name, isMethodNameChar c = true := by
  refine (Reader.gives_char _).present.bind fun tilde _ => ?_
  refine (Reader.gives_many1 _).bind fun name hname => Reader.gives_pure ?_
  have hword : ∀ c ∈ name, isMethodNameChar c = true := fun c hc => by
    simp [isMethodNameChar, hname c hc]
  split
  · exact List.forall_mem_cons.mpr ⟨by decide, hword⟩
  · exact hword

/-- So has the name behind a scope. -/
theorem gives_scopedName :
    scopedName.Gives I fun m => ∀ c ∈ m.name, isMethodNameChar c = true := by
  refine Reader.gives_here.bind fun _ _ => (Reader.gives_many1 _).bind fun _ _ => ?_
  refine Reader.gives_blanks.bind fun _ _ => (Reader.gives_text _).bind fun _ _ => ?_
  refine Reader.gives_blanks.bind fun _ _ => gives_methodIdent.bind fun name hname => ?_
  refine Reader.gives_blanks.bind fun _ _ => Reader.gives_here.bind fun _ _ => ?_
  exact (Reader.gives_char _).bind fun _ _ => Reader.gives_pure hname

/-- What stands in front of a body leaves the track. -/
theorem gives_bodyTail : bodyTail.Gives I fun _ => True := by
  refine Reader.gives_blanks.bind fun _ _ => ?_
  refine ((Reader.gives_text _).bind fun _ _ => Reader.gives_wordEnd).present.bind fun _ _ => ?_
  refine Reader.gives_blanks.bind fun _ _ => ?_
  refine Reader.Gives.bind (Reader.Gives.option (P := fun _ => True) ?_) ?_
  · refine (Reader.gives_char _).bind fun _ _ => Reader.gives_here.bind fun _ _ => ?_
    refine (Reader.gives_many _).bind fun _ _ => Reader.gives_here.bind fun _ _ => ?_
    exact Reader.gives_pure trivial
  · refine fun _ _ => Reader.gives_here.bind fun _ _ => (Reader.gives_char _).bind fun _ _ => ?_
    exact Reader.gives_pure trivial

/-- The name of an implementation has nothing but those characters. -/
theorem gives_implementation :
    implementation.Gives I fun m => ∀ c ∈ m.target.name, isMethodNameChar c = true := by
  refine Reader.gives_lineStart.bind fun _ _ => (Reader.gives_many _).bind fun _ _ => ?_
  refine Reader.gives_here.bind fun _ _ => (Reader.gives_ahead _).bind fun _ _ => ?_
  refine Reader.Gives.bind (Reader.Gives.behind
    (P := fun p => ∀ c ∈ p.1.name, isMethodNameChar c = true) ?_ _) fun p hp => ?_
  · refine gives_scopedName.bind fun target htarget => (Reader.gives_many _).bind fun _ _ => ?_
    refine Reader.gives_here.bind fun _ _ => (Reader.gives_char _).bind fun _ _ => ?_
    exact gives_bodyTail.bind fun _ _ => Reader.gives_pure htarget
  · exact Reader.gives_pure hp

/-- A missing scope leaves the track. -/
theorem gives_unscoped : unscoped.Gives I fun _ => True :=
  Reader.gives_look _ fun _ => rfl

/-- The name of a free function has nothing but those characters. -/
theorem gives_freeFunction :
    freeFunction.Gives I fun m => ∀ c ∈ m.name, isMethodNameChar c = true := by
  refine Reader.gives_lineStart.bind fun _ _ => (Reader.gives_many _).bind fun _ _ => ?_
  refine Reader.gives_here.bind fun _ _ => (Reader.gives_ahead _).bind fun _ _ => ?_
  refine Reader.Gives.bind (Reader.Gives.behind
    (P := fun p => ∀ c ∈ p.1, isMethodNameChar c = true) ?_ _) fun p hp => ?_
  · refine gives_unscoped.bind fun _ _ => Reader.gives_here.bind fun _ _ => ?_
    refine (Reader.gives_satisfy _).bind fun first hfirst => ?_
    refine (Reader.gives_many _).bind fun others hothers => ?_
    refine Reader.gives_blanks.bind fun _ _ => Reader.gives_here.bind fun _ _ => ?_
    refine (Reader.gives_char _).bind fun _ _ => Reader.gives_pure ?_
    refine List.forall_mem_cons.mpr ⟨?_, fun c hc => ?_⟩
    · simp [isMethodNameChar, isWord_of_isIdentStart hfirst]
    · simp [isMethodNameChar, hothers c hc]
  · exact Reader.gives_pure hp

end

/-- What is known of a text behind the parameters is known of an implementation. -/
theorem gives_implementation_tail {I : Track} {P : BodyTail → Prop} (h : bodyTail.Gives I P) :
    implementation.Gives I fun m => P m.tail := by
  refine Reader.gives_lineStart.bind fun _ _ => (Reader.gives_many _).bind fun _ _ => ?_
  refine Reader.gives_here.bind fun _ _ => (Reader.gives_ahead _).bind fun _ _ => ?_
  refine Reader.Gives.bind (Reader.Gives.behind (P := fun p => P p.2.2) ?_ _) fun p hp => ?_
  · refine gives_scopedName.bind fun _ _ => (Reader.gives_many _).bind fun _ _ => ?_
    refine Reader.gives_here.bind fun _ _ => (Reader.gives_char _).bind fun _ _ => ?_
    exact h.bind fun _ htail => Reader.gives_pure htail
  · exact Reader.gives_pure hp

/-! ### What one step takes -/

/-- A definition with what is read behind its parameters. -/
structure Definition.HasTail (page : SourcePage) (d : Definition) (tail : BodyTail) : Prop
    extends d.IsFound page where
  brace : d.brace = tail.brace
  initializers : d.initializers = initText page tail

section

variable {page : SourcePage}

/-- **What a step over the usual form takes**: nothing, or one definition, which it puts behind the
others. What is known of every text behind parameters is known of that of the definition. -/
theorem takeImplementation_cases (acc : List Method × SourceScan) {m : Implementation}
    (hm : m ∈ implementation.findAll page.masked) {P : BodyTail → Prop}
    (hP : bodyTail.Gives (Track.inside page.masked) P) :
    takeImplementation page acc m = acc ∨ ∃ d tail, d.HasTail page tail ∧ P tail ∧
      takeImplementation page acc m =
        (acc.1 ++ [(acc.2.define page d).1], (acc.2.define page d).2) := by
  have hname : ∀ c ∈ m.target.name, isMethodNameChar c = true :=
    (gives_implementation (I := Track.every)).findAll trivial m hm
  rw [takeImplementation]
  split
  · exact Or.inl rfl
  · exact Or.inr ⟨_, m.tail, ⟨⟨hname, _, _, rfl⟩, rfl, rfl⟩,
      (gives_implementation_tail hP).findAll rfl m hm, rfl⟩

/-- **What a step over the other forms takes**, which looks for the text behind the parameters
itself. -/
theorem recoverImplementation_cases (acc : List Method × SourceScan) {m : ScopedName}
    (hm : m ∈ scopedName.findAll page.masked) {P : BodyTail → Prop}
    (hP : bodyTail.Gives (Track.inside page.masked) P) :
    recoverImplementation page acc m = acc ∨ ∃ d tail, d.HasTail page tail ∧ P tail ∧
      recoverImplementation page acc m =
        (acc.1 ++ [(acc.2.define page d).1], (acc.2.define page d).2) := by
  have hname : ∀ c ∈ m.name, isMethodNameChar c = true :=
    (gives_scopedName (I := Track.every)).findAll trivial m hm
  rw [recoverImplementation]
  split
  · exact Or.inl rfl
  dsimp only
  split
  · exact Or.inl rfl
  · rename_i parenEnd tail hfound
    split
    · exact Or.inl rfl
    · simp only [Option.bind_eq_bind, Option.bind_eq_some_iff] at hfound
      obtain ⟨_, _, _, htail, heq⟩ := hfound
      obtain ⟨-, rfl⟩ := Prod.mk.inj (Option.some.inj heq)
      exact Or.inr ⟨_, _, ⟨⟨hname, _, _, rfl⟩, rfl, rfl⟩, hP.readAt rfl htail, rfl⟩

/-- **What a step over free functions takes**: nothing, the constructor of a type of the file, or a
local function. -/
theorem takeFreeFunction_cases (found : FoundFunctions) {m : FreeFunction}
    (hm : m ∈ freeFunction.findAll page.masked) :
    (∃ scan, takeFreeFunction page found m = { found with scan := scan }) ∨
    ∃ d : Definition, d.IsFound page ∧
      ((∃ i, takeFreeFunction page found m = { found with
        scan := (found.scan.define page d).2
        structs := found.structs.modify i fun t => { t with methods := t.methods ++
          [{ (found.scan.define page d).1 with isConstructor := true, visibility := .pub }] } }) ∨
      takeFreeFunction page found m = { found with
        scan := (found.scan.define page d).2
        locals := found.locals ++ [(found.scan.define page d).1.asLocal] }) := by
  have hname : ∀ c ∈ m.name, isMethodNameChar c = true :=
    (gives_freeFunction (I := Track.every)).findAll trivial m hm
  rw [takeFreeFunction]
  split
  · exact Or.inl ⟨_, rfl⟩
  dsimp only
  split
  · exact Or.inl ⟨_, rfl⟩
  · split
    · split
      · exact Or.inl ⟨_, rfl⟩
      · exact Or.inr ⟨_, ⟨hname, _, _, rfl⟩, Or.inl ⟨_, rfl⟩⟩
    · exact Or.inr ⟨_, ⟨hname, _, _, rfl⟩, Or.inr rfl⟩

end

namespace Readable

variable {page : SourcePage} {P : Method → Prop}

/-! ### The passes -/

/-- The pass over the usual form. -/
theorem takeImplementation
    (hdefine : ∀ (s : SourceScan) (d : Definition), d.IsFound page → P (s.define page d).1)
    {acc : List Method × SourceScan} (h : ∀ m ∈ acc.1, P m) {m : Implementation}
    (hm : m ∈ implementation.findAll page.masked) :
    ∀ k ∈ (takeImplementation page acc m).1, P k := by
  obtain heq | ⟨d, tail, hd, -, heq⟩ := takeImplementation_cases acc hm gives_bodyTail
  · rw [heq]
    exact h
  · rw [heq]
    exact forall_mem_concat h (hdefine _ _ hd.toIsFound)

/-- The pass over the other forms. -/
theorem recoverImplementation
    (hdefine : ∀ (s : SourceScan) (d : Definition), d.IsFound page → P (s.define page d).1)
    {acc : List Method × SourceScan} (h : ∀ m ∈ acc.1, P m) {m : ScopedName}
    (hm : m ∈ scopedName.findAll page.masked) :
    ∀ k ∈ (recoverImplementation page acc m).1, P k := by
  obtain heq | ⟨d, tail, hd, -, heq⟩ := recoverImplementation_cases acc hm gives_bodyTail
  · rw [heq]
    exact h
  · rw [heq]
    exact forall_mem_concat h (hdefine _ _ hd.toIsFound)

/-- The pass over free functions. -/
theorem takeFreeFunction
    (hdefine : ∀ (s : SourceScan) (d : Definition), d.IsFound page → P (s.define page d).1.asLocal)
    {found : FoundFunctions} (h : ∀ m ∈ found.locals, P m) {m : FreeFunction}
    (hm : m ∈ freeFunction.findAll page.masked) :
    ∀ k ∈ (takeFreeFunction page found m).locals, P k := by
  obtain ⟨scan, heq⟩ | ⟨d, hd, ⟨i, heq⟩ | heq⟩ := takeFreeFunction_cases found hm
  · exact heq ▸ h
  · -- A constructor goes to its type, so the local functions stay.
    exact heq ▸ h
  · rw [heq]
    exact forall_mem_concat h (hdefine _ _ hd)

/-- Methods of a second reading are taken as they are. -/
theorem forall_mem_addUnseen {methods more : List Method} (h : ∀ m ∈ methods, P m)
    (hmore : ∀ m ∈ more, P m) : ∀ m ∈ addUnseen methods more, P m := by
  refine List.foldlRecOn (motive := fun seen : List Method => ∀ m ∈ seen, P m) more _ h
    fun seen hseen m hm => ?_
  split
  · exact hseen
  · exact forall_mem_concat hseen (hmore m hm)

/-! ### Order and regions -/

/-- Methods are numbered one by one. -/
theorem numberMethods (hP : Readable page P) {methods : List Method} (h : ∀ m ∈ methods, P m)
    (positions : List Nat) (base : Nat) : ∀ m ∈ numberMethods positions base methods, P m := by
  intro m hm
  obtain ⟨i, hi, rfl⟩ := List.mem_mapIdx.mp hm
  exact hP.number _ _ (h methods[i] (List.getElem_mem hi))

end Readable

/-- A marker is attached to one method at most. -/
theorem attachRegion_eq (page : SourcePage) (methods : List Method) (r : RegionLine) :
    attachRegion page methods r =
      if r.opens then
        (methods.findIdx? fun k => r.start < k.position).elim methods fun i =>
          methods.modify i fun k => { k with sourceRegionStart := r.marker page }
      else
        (lastBelow? (fun i => methods[i]?.any (·.position < r.start)) methods.length).elim methods
          fun i => methods.modify i fun k => { k with sourceRegionEnd := r.marker page } := by
  rw [attachRegion]
  cases methods.findIdx? fun k => r.start < k.position <;>
    cases lastBelow? (fun i => methods[i]?.any (·.position < r.start)) methods.length <;> rfl

/-- **Region markers change nothing else**: what all methods have before they are attached, and no
marker takes away, all have afterwards. -/
theorem forall_mem_attachRegions {page : SourcePage} {P : Method → Prop} {methods : List Method}
    (hstart : ∀ m, ∀ r ∈ page.regionLines, P m → P { m with sourceRegionStart := r.marker page })
    (hend : ∀ m, ∀ r ∈ page.regionLines, P m → P { m with sourceRegionEnd := r.marker page })
    (h : ∀ m ∈ methods, P m) : ∀ m ∈ attachRegions page methods, P m := by
  refine List.foldlRecOn (motive := fun placed : List Method => ∀ m ∈ placed, P m) _ _ h
    fun placed h r hr => ?_
  rw [attachRegion_eq]
  split
  · cases placed.findIdx? fun k => r.start < k.position with
    | none => exact h
    | some i => exact forall_mem_modify h (fun k => hstart k r hr) i
  · cases lastBelow? (fun i => placed[i]?.any (·.position < r.start)) placed.length with
    | none => exact h
    | some i => exact forall_mem_modify h (fun k => hend k r hr) i

/-! ### The whole file -/

/-- **What every definition has, every method of a source has.** -/
theorem forall_mem_parseSource {text path : Text} {P : Method → Prop}
    (hP : Readable (SourcePage.ofText text path) P) :
    ∀ m ∈ (parseSource text path).1.methods ++ (parseSource text path).1.locals, P m := by
  have hplaced : ∀ (positions : List Nat) {methods locals : List Method},
      (∀ m ∈ methods, P m) → (∀ m ∈ locals, P m) →
      ∀ m ∈ attachRegions (SourcePage.ofText text path)
        (sortByPosition (numberMethods positions 0 (methods ++ locals))), P m := by
    intro positions methods locals hmethods hlocals
    refine forall_mem_attachRegions hP.regionStart hP.regionEnd ?_
    have hboth : ∀ m ∈ methods ++ locals, P m := fun m hm =>
      (List.mem_append.mp hm).elim (hmethods m) (hlocals m)
    exact fun m hm => hP.numberMethods hboth positions 0 m (List.mem_mergeSort.mp hm)
  have hfilter : ∀ {placed : List Method}, (∀ m ∈ placed, P m) →
      ∀ m ∈ placed.filter (fun m => !m.isLocal) ++ placed.filter Method.isLocal, P m := by
    intro placed h m hm
    rcases List.mem_append.mp hm with hm | hm
    · exact h m (List.mem_filter.mp hm).1
    · exact h m (List.mem_filter.mp hm).1
  rw [parseSource]
  refine hfilter (hplaced _ (Readable.forall_mem_addUnseen ?_ ?_) ?_)
  · exact List.foldlRecOn (motive := fun acc : _ × _ => ∀ m ∈ acc.1, P m) _ _ (by simp)
      fun acc h m hm => Readable.takeImplementation hP.define h hm
  · exact List.foldlRecOn (motive := fun acc : _ × _ => ∀ m ∈ acc.1, P m) _ _ (by simp)
      fun acc h m hm => Readable.recoverImplementation hP.define h hm
  · exact List.foldlRecOn (motive := fun found => ∀ m ∈ FoundFunctions.locals found, P m) _ _
      (by simp) fun found h m hm =>
        Readable.takeFreeFunction (fun s d hd => hP.asLocal _ (hP.define s d hd)) h hm

end Sharpen
