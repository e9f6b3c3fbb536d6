import Mathlib.Data.List.Nodup
import Sharpen.Proofs.Code.Matching
import Sharpen.Proofs.Source.Kept

/-!
# Depth and Matching Braces

Whether a position of a source file is at file scope is read off a map of depths, which a single
count over the masked text has made. It leaves out the braces of namespaces and linkage blocks with
those that close them, and never goes below zero. Where a body ends is found by a search of its own
for each brace. The two agree on every text, balanced or not: the depth is the number of blocks that
a search from their opening brace finds still open.

What connects them is the stack of the braces that are open. A search from a brace on the stack is,
seen from further on, a search for the end of as many blocks as stand above it.

A count that never goes below zero forgets closing braces that close nothing, and so does the stack,
which is then empty. So both agree at every position by one induction over the text.

## Main definitions

* `isOpenBefore` — a block that counts, and is not closed before a position.
* `OpenStack` — the invariant of the stack; `OpenStack.step` is what one character does to it.
* `stackStep` — what the character at position `i` does to the braces that are open, the last of
  them first.
* `depthBehind` — the depth behind the character at position `i`, if it is `depth` before it.

## Main results

* `depthMap_eq` — the map of depths, on any text.
* `SourcePage.atFileScope_iff` — file scope on the page of a source file.
* `depths_matching` — depths and searches of a source file, both said by counting.
* `OpenStack.countP_eq` — the blocks on the stack that count are the blocks that are open.
* `depthBehind_eq` — the count follows the stack: its depth is the number of blocks on the stack
  that count.
-/

namespace Sharpen

/-! ### The braces of scopes -/

/-- A block whose contents count as file scope starts with a brace. -/
theorem gives_scopeBlock (t : Text) :
    scopeBlock.Gives (Track.inside t) fun brace => t[brace]? = some '\x7b' := by
  refine Reader.gives_wordStart.bind fun _ _ => ?_
  refine (Reader.Gives.orElse (P := fun _ => True) ?_ ?_).bind fun _ _ => ?_
  · refine ((Reader.gives_text _).bind fun _ _ => Reader.gives_wordEnd).bind fun _ _ => ?_
    exact (Reader.gives_many _).bind fun _ _ => Reader.gives_pure trivial
  · refine (Reader.gives_text _).bind fun _ _ => Reader.gives_blanks1.bind fun _ _ => ?_
    refine (Reader.gives_char _).bind fun _ _ => Reader.gives_blanks.bind fun _ _ => ?_
    exact (Reader.gives_char _).bind fun _ _ => Reader.gives_blanks
  · exact Reader.gives_here_char _ t fun _ hbrace => Reader.gives_pure hbrace

/-- A block that opens a scope does so with a brace. -/
theorem brace_of_mem_scopeBlock {t : Text} {b : Nat} (hb : b ∈ scopeBlock.findAll t) :
    t[b]? = some '\x7b' :=
  (gives_scopeBlock t).findAll (show t = t.drop 0 from rfl) b hb

/-- The braces that do not count: those that open a scope, and those that close one. -/
theorem mem_scopeBraces_iff {t : Text} {i : Nat} : i ∈ scopeBraces t ↔
    i ∈ scopeBlock.findAll t ∨
      ∃ b ∈ scopeBlock.findAll t, matchingAt? '\x7b' '\x7d' t b = some i := by
  simp only [scopeBraces, List.mem_flatMap, List.mem_cons, Option.mem_toList]
  constructor
  · rintro ⟨b, hb, rfl | hmatch⟩
    · exact Or.inl hb
    · exact Or.inr ⟨b, hb, hmatch⟩
  · rintro (hi | ⟨b, hb, hmatch⟩)
    · exact ⟨i, hi, Or.inl rfl⟩
    · exact ⟨b, hb, Or.inr hmatch⟩

/-! ### Open blocks -/

/-- Whether the block whose brace stands at `b` counts as depth. -/
def countsAsDepth (t : Text) (b : Nat) : Bool :=
  !(scopeBlock.findAll t).contains b

/-- **Whether a block counts and is still open before position `o`**: a brace at `b` opens it, the
brace is not that of a namespace or a linkage block, and the search for its end finds nothing or a
position that is not before `o`. -/
def isOpenBefore (t : Text) (o b : Nat) : Bool :=
  t[b]? == some '\x7b' && countsAsDepth t b &&
    match findMatching? t b with
    | .ok (some stop) => decide (o ≤ stop)
    | .ok none => true
    | .error _ => false

/-- A brace is open before a place when it is one that counts and its match is not in front of the
place. -/
theorem isOpenBefore_iff {t : Text} {o b : Nat} : isOpenBefore t o b = true ↔
    t[b]? = some '\x7b' ∧ countsAsDepth t b = true ∧
      ∀ stop, matchingAt? '\x7b' '\x7d' t b = some stop → o ≤ stop := by
  rw [isOpenBefore, Bool.and_eq_true, Bool.and_eq_true, beq_iff_eq, and_assoc]
  refine and_congr_right fun hbrace => and_congr_right fun _ => ?_
  rw [findMatching?_eq_ok hbrace rfl]
  cases matchingAt? '\x7b' '\x7d' t b <;> simp

/-! ### The stack of open braces -/

/-- What the character at position `i` does to the braces that are open, the last of them first. -/
def stackStep (i : Nat) (c : Char) (stack : List Nat) : List Nat :=
  if c == '\x7b' then i :: stack else if c == '\x7d' then stack.tail else stack

/-- An opening brace is put on the stack. -/
theorem stackStep_open (i : Nat) (stack : List Nat) : stackStep i '\x7b' stack = i :: stack := rfl

/-- A closing brace takes one off. -/
theorem stackStep_close (i : Nat) (stack : List Nat) : stackStep i '\x7d' stack = stack.tail := rfl

/-- Any other character leaves the stack. -/
theorem stackStep_other {c : Char} (hopn : c ≠ '\x7b') (hclose : c ≠ '\x7d') (i : Nat)
    (stack : List Nat) : stackStep i c stack = stack := by
  simp [stackStep, hopn, hclose]

/-- **The braces that are open before position `i`**, the last of them first. A search that started
at the brace with `k` others above it is on its way out of as many blocks; a search from any other
brace has ended. -/
structure OpenStack (t : Text) (i : Nat) (stack : List Nat) : Prop where
  nodup : stack.Nodup
  brace : ∀ b ∈ stack, b < i ∧ t[b]? = some '\x7b'
  searched : ∀ k b, stack[k]? = some b →
    matchingAt? '\x7b' '\x7d' t b = (closeOffset '\x7b' '\x7d' k (t.drop i)).map (· + i)
  closed : ∀ b < i, t[b]? = some '\x7b' → b ∉ stack →
    ∃ stop < i, matchingAt? '\x7b' '\x7d' t b = some stop

/-- At the start of a text no brace is open. -/
theorem openStack_start (t : Text) : OpenStack t 0 [] where
  nodup := List.nodup_nil
  brace := by simp
  searched := by simp
  closed := by simp

namespace OpenStack

variable {t : Text} {i : Nat} {stack : List Nat}

/-- The braces on the stack are those whose block has not been closed. -/
theorem mem_iff (h : OpenStack t i stack) {b : Nat} : b ∈ stack ↔ b < i ∧ t[b]? = some '\x7b' ∧
    ∀ stop, matchingAt? '\x7b' '\x7d' t b = some stop → i ≤ stop := by
  constructor
  · intro hb
    obtain ⟨hlt, hbrace⟩ := h.brace b hb
    refine ⟨hlt, hbrace, fun stop hstop => ?_⟩
    obtain ⟨k, hk⟩ := List.mem_iff_getElem?.mp hb
    rw [h.searched k b hk] at hstop
    obtain ⟨n, -, rfl⟩ := Option.map_eq_some_iff.mp hstop
    exact Nat.le_add_left i n
  · rintro ⟨hlt, hbrace, hopen⟩
    by_contra hb
    obtain ⟨stop, hlt', hstop⟩ := h.closed b hlt hbrace hb
    exact absurd (hopen stop hstop) (Nat.not_le.mpr hlt')

/-- **The blocks on the stack that count are the blocks that are open.** -/
theorem countP_eq (h : OpenStack t i stack) :
    stack.countP (countsAsDepth t) = (List.range i).countP (isOpenBefore t i) := by
  have hperm : (stack.filter (countsAsDepth t)).Perm
      ((List.range i).filter (isOpenBefore t i)) := by
    refine (List.perm_ext_iff_of_nodup (h.nodup.filter _) (List.nodup_range.filter _)).mpr ?_
    intro b
    rw [List.mem_filter, List.mem_filter, h.mem_iff, List.mem_range, isOpenBefore_iff]
    constructor
    · rintro ⟨⟨hlt, hbrace, hopen⟩, hcounts⟩
      exact ⟨hlt, hbrace, hcounts, hopen⟩
    · rintro ⟨hlt, hbrace, hcounts, hopen⟩
      exact ⟨⟨hlt, hbrace, hopen⟩, hcounts⟩
  rw [List.countP_eq_length_filter, List.countP_eq_length_filter, hperm.length_eq]

/-! ### One character -/

section

variable {c : Char} (hc : t[i]? = some c)

include hc

/-- What a search is on its way to is as far away from the next position, by one less. -/
theorem searched_next {k k' b : Nat} (h : matchingAt? '\x7b' '\x7d' t b =
      (closeOffset '\x7b' '\x7d' k (t.drop i)).map (· + i))
    (hoffset : closeOffset '\x7b' '\x7d' k (c :: t.drop (i + 1)) =
      (closeOffset '\x7b' '\x7d' k' (t.drop (i + 1))).map (· + 1)) :
    matchingAt? '\x7b' '\x7d' t b =
      (closeOffset '\x7b' '\x7d' k' (t.drop (i + 1))).map (· + (i + 1)) := by
  rw [h, drop_eq_cons hc, hoffset, Option.map_map]
  refine congrArg (Option.map · _) (funext fun n => ?_)
  simp only [Function.comp_apply]
  omega

/-- A closing brace ends the search from the topmost brace, and no other. -/
theorem eq_top (h : OpenStack t i stack) (hclose : c = '\x7d') {b : Nat}
    (hb : t[b]? = some '\x7b') (hmatch : matchingAt? '\x7b' '\x7d' t b = some i) :
    stack.head? = some b := by
  have hmem : b ∈ stack :=
    h.mem_iff.mpr ⟨(matchingAt?_eq_some hmatch).1, hb, fun stop hstop => by
      rw [hmatch] at hstop
      exact (Option.some.inj hstop).le⟩
  obtain ⟨k, hk⟩ := List.mem_iff_getElem?.mp hmem
  cases k with
  | zero => rwa [List.head?_eq_getElem?]
  | succ k =>
      have hnext := searched_next hc (h.searched _ b hk) (by
        rw [hclose, closeOffset_cons_close (by decide)])
      rw [hmatch] at hnext
      obtain ⟨n, -, hn⟩ := Option.map_eq_some_iff.mp hnext.symm
      omega

end

/-- A brace is opened. -/
theorem step_open (h : OpenStack t i stack) (hc : t[i]? = some '\x7b') :
    OpenStack t (i + 1) (i :: stack) where
  nodup := List.nodup_cons.mpr ⟨fun hi => absurd (h.brace i hi).1 (Nat.lt_irrefl i), h.nodup⟩
  brace := List.forall_mem_cons.mpr ⟨⟨Nat.lt_succ_self i, hc⟩, fun b hb =>
    ⟨Nat.lt_succ_of_lt (h.brace b hb).1, (h.brace b hb).2⟩⟩
  searched k b hk := by
    cases k with
    | zero =>
        obtain rfl := Option.some.inj hk
        rfl
    | succ k => exact searched_next hc (h.searched k b hk) (closeOffset_cons_opn _ _ k _)
  closed b hb hbrace hmem := by
    rw [List.mem_cons, not_or] at hmem
    obtain ⟨stop, hlt, hstop⟩ := h.closed b (by omega) hbrace hmem.2
    exact ⟨stop, by omega, hstop⟩

/-- A brace is closed: the last one that has been opened, if there is one. -/
theorem step_close (h : OpenStack t i stack) (hc : t[i]? = some '\x7d') :
    OpenStack t (i + 1) stack.tail where
  nodup := h.nodup.sublist (List.tail_sublist stack)
  brace b hb := by
    obtain ⟨hlt, hbrace⟩ := h.brace b (List.mem_of_mem_tail hb)
    exact ⟨by omega, hbrace⟩
  searched k b hk := by
    rw [List.getElem?_tail] at hk
    exact searched_next hc (h.searched (k + 1) b hk) (closeOffset_cons_close (by decide) k _)
  closed b hb hbrace hmem := by
    have hne : b ≠ i := by
      rintro rfl
      rw [hc] at hbrace
      exact absurd hbrace (by decide)
    by_cases hold : b ∈ stack
    · -- The block of the topmost brace ends here.
      cases stack with
      | nil => exact absurd hold List.not_mem_nil
      | cons top rest =>
          obtain rfl : b = top := (List.mem_cons.mp hold).resolve_right hmem
          refine ⟨i, Nat.lt_succ_self i, ?_⟩
          rw [h.searched 0 b rfl, drop_eq_cons hc, closeOffset_zero_close (by decide)]
          simp
    · obtain ⟨stop, hlt, hstop⟩ := h.closed b (by omega) hbrace hold
      exact ⟨stop, by omega, hstop⟩

/-- Other characters leave the stack alone. -/
theorem step_other (h : OpenStack t i stack) {c : Char} (hc : t[i]? = some c) (hopn : c ≠ '\x7b')
    (hclose : c ≠ '\x7d') : OpenStack t (i + 1) stack where
  nodup := h.nodup
  brace b hb := ⟨Nat.lt_succ_of_lt (h.brace b hb).1, (h.brace b hb).2⟩
  searched k b hk := searched_next hc (h.searched k b hk) (closeOffset_cons_of_ne hopn hclose k _)
  closed b hb hbrace hmem := by
    have hne : b ≠ i := by
      rintro rfl
      rw [hc] at hbrace
      exact hopn (Option.some.inj hbrace)
    obtain ⟨stop, hlt, hstop⟩ := h.closed b (by omega) hbrace hmem
    exact ⟨stop, by omega, hstop⟩

/-- **One character keeps the invariant.** -/
theorem step (h : OpenStack t i stack) {c : Char} (hc : t[i]? = some c) :
    OpenStack t (i + 1) (stackStep i c stack) := by
  by_cases hopn : c = '\x7b'
  · subst hopn
    exact h.step_open hc
  · by_cases hclose : c = '\x7d'
    · subst hclose
      exact h.step_close hc
    · rw [stackStep_other hopn hclose]
      exact h.step_other hc hopn hclose

end OpenStack

/-! ### The map of depths -/

/-- The depth behind the character at position `i`, if it is `depth` before it. -/
def depthBehind (ignored : List Nat) (i depth : Nat) (c : Char) : Nat :=
  if ignored.contains i then depth
  else if c == '\x7b' then depth + 1
  else if c == '\x7d' then depth - 1
  else depth

theorem depthsFrom_cons (ignored : List Nat) (i depth : Nat) (c : Char) (r : Text) :
    depthsFrom ignored i depth (c :: r) =
      depth :: depthsFrom ignored (i + 1) (depthBehind ignored i depth c) r :=
  rfl

section

variable {t : Text} {i : Nat} {stack : List Nat}

/-- **The count follows the stack**: its depth is the number of blocks on the stack that count. A
closing brace closes a scope just if the topmost block is one. -/
theorem depthBehind_eq (h : OpenStack t i stack) {c : Char} (hc : t[i]? = some c) :
    depthBehind (scopeBraces t) i (stack.countP (countsAsDepth t)) c =
      (stackStep i c stack).countP (countsAsDepth t) := by
  by_cases hopn : c = '\x7b'
  · subst hopn
    have hscope : (scopeBraces t).contains i = !countsAsDepth t i := by
      rw [countsAsDepth, Bool.not_not, Bool.eq_iff_iff, List.contains_iff_mem,
        List.contains_iff_mem, mem_scopeBraces_iff]
      refine or_iff_left ?_
      rintro ⟨b, -, hmatch⟩
      rw [(matchingAt?_eq_some hmatch).2] at hc
      exact absurd hc (by decide)
    rw [depthBehind, hscope, stackStep_open, List.countP_cons]
    cases countsAsDepth t i <;> rfl
  by_cases hclose : c = '\x7d'
  · subst hclose
    rw [stackStep_close]
    cases stack with
    | nil => simp [depthBehind]
    | cons top rest =>
        have hscope : (scopeBraces t).contains i = !countsAsDepth t top := by
          rw [countsAsDepth, Bool.not_not, Bool.eq_iff_iff, List.contains_iff_mem,
            List.contains_iff_mem, mem_scopeBraces_iff]
          constructor
          · rintro (hi | ⟨b, hb, hmatch⟩)
            · rw [brace_of_mem_scopeBlock hi] at hc
              exact absurd hc (by decide)
            · have htop := OpenStack.eq_top hc h rfl (brace_of_mem_scopeBlock hb) hmatch
              obtain rfl : top = b := Option.some.inj htop
              exact hb
          · intro htop
            refine Or.inr ⟨top, htop, ?_⟩
            rw [h.searched 0 top rfl, drop_eq_cons hc, closeOffset_zero_close (by decide)]
            simp
        rw [depthBehind, hscope, List.countP_cons, List.tail_cons]
        cases countsAsDepth t top <;> rfl
  · rw [stackStep_other hopn hclose]
    simp [depthBehind, hopn, hclose]

/-- The depths from a position on. -/
theorem depthsFrom_eq (h : OpenStack t i stack) {r : Text} (hr : t.drop i = r) :
    depthsFrom (scopeBraces t) i (stack.countP (countsAsDepth t)) r =
      (List.range' i (r.length + 1)).map fun o => (List.range o).countP (isOpenBefore t o) := by
  induction r generalizing i stack with
  | nil => rw [depthsFrom, h.countP_eq]; rfl
  | cons c r ih =>
      have hc : t[i]? = some c := by rw [← List.head?_drop, hr, List.head?_cons]
      have hr' : t.drop (i + 1) = r := by rw [← List.tail_drop, hr, List.tail_cons]
      rw [depthsFrom_cons, depthBehind_eq h hc, ih (h.step hc) hr', h.countP_eq]
      rfl

end

/-- **The depth before a position is the number of blocks that are open there**, in any text. -/
theorem depthMap_eq (t : Text) : depthMap t =
    (List.range (t.length + 1)).map fun o => (List.range o).countP (isOpenBefore t o) := by
  rw [depthMap, List.range_eq_range']
  exact depthsFrom_eq (openStack_start t) List.drop_zero

/-- A position of a source file is at file scope just if all blocks before it have been closed,
apart from namespaces and linkage blocks. -/
theorem SourcePage.atFileScope_iff (text path : Text) {o : Nat}
    (ho : o ≤ (SourcePage.ofText text path).masked.length) :
    (SourcePage.ofText text path).atFileScope o = true ↔
      ∀ b < o, isOpenBefore (SourcePage.ofText text path).masked o b = false := by
  have hdepth : (SourcePage.ofText text path).depths.getD o 0 =
      (List.range o).countP (isOpenBefore (SourcePage.ofText text path).masked o) := by
    change (depthMap (SourcePage.ofText text path).masked).getD o 0 = _
    rw [depthMap_eq, List.getD_eq_getElem?_getD, List.getElem?_map,
      List.getElem?_range (Nat.lt_succ_of_le ho)]
    rfl
  rw [SourcePage.atFileScope, hdepth, beq_iff_eq, List.countP_eq_zero]
  simp

/-- **Depths and searches agree.** The depths of a masked text are, for every position from its
start to its end, the numbers of blocks that count and that a search finds open there. And what a
search for any opening bracket of any text finds is the first position behind it at which, counted
from there, as many brackets of its kind have been closed as opened; it finds nothing just if there
is none. -/
theorem depths_matching (text : Text) :
    (depthMap (maskCode text) = (List.range (text.length + 1)).map fun o =>
      (List.range o).countP (isOpenBefore (maskCode text) o)) ∧
    ∀ (t : Text) (i : Nat) (opn close : Char), t[i]? = some opn → closingBracket opn = some close →
      ∃ found, findMatching? t i = .ok found ∧
        (∀ m, found = some m ↔ IsLeast (balancePoints opn close t i) m) ∧
        (found = none ↔ balancePoints opn close t i = ∅) := by
  refine ⟨by rw [depthMap_eq, length_maskCode], fun t i opn close hopn hclose => ?_⟩
  have hne := ne_of_closingBracket hclose
  exact ⟨matchingAt? opn close t i, findMatching?_eq_ok hopn hclose,
    fun _ => matchingAt?_eq_some_iff hne hopn, matchingAt?_eq_none_iff hne hopn⟩

/-- A namespace with a function in it, a brace too many and one too few. -/
theorem depths_matching_unbalanced :
    depthMap (maskCode "namespace n\x7bf\x7b\x7d\x7d\x7d\x7b") =
        [0, 0, 0, 0, 0, 0, 0, 0, 0, 0, 0, 0, 0, 0, 1, 0, 0, 0, 1] ∧
      "f\x7b(\x7d".toList[1]? = some '\x7b' ∧ closingBracket '\x7b' = some '\x7d' ∧
      ∃ found, findMatching? "f\x7b(\x7d" 1 = .ok found ∧
        (∀ m, found = some m ↔ IsLeast (balancePoints '\x7b' '\x7d' "f\x7b(\x7d" 1) m) ∧
        (found = none ↔ balancePoints '\x7b' '\x7d' "f\x7b(\x7d" 1 = ∅) := by
  obtain ⟨hdepths, hsearch⟩ := depths_matching "namespace n\x7bf\x7b\x7d\x7d\x7d\x7b"
  refine ⟨hdepths.trans ?_, rfl, rfl, hsearch "f\x7b(\x7d" 1 '\x7b' '\x7d' rfl rfl⟩
  decide

end Sharpen
