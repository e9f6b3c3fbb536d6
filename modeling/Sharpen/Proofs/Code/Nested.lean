import Mathlib.Data.Bool.AllAny
import Sharpen.Header.Scan
import Sharpen.Proofs.Decl.Closed
import Sharpen.Proofs.Header.Masked
import Sharpen.Proofs.Text.LineBreaks

/-!
# Nested Brackets and Bare Code

Where a construct ends is found by counting brackets, each time in another way. A text whose
brackets are nested looks the same to all of them: they are at its end where they were at its start,
and find nothing inside of it.

There are three such searches: for a closing brace, for a separator and for the end of a statement.
Each keeps another number, and each is shown to arrive behind a nested text with the number that it
had in front of it. Bare code is what these statements are applied to, since the brackets of its
masked copy are its own.

## Main definitions

* `nestedFrom` — the brackets of a text close each other in the right order.
* `ClosesBraces`, `splitFrom_nested`, `runsOn_nested` — nested texts are passed over.
* `isBare` — a text without comments and literals, which the masked copy shows as it is.
* `isBracket` — the brackets of C++ code that are always in pairs.
* `runsOn` — the depths of parentheses and braces behind a text, if no statement ends in it that has
  the given depths before it.

## Main results

* `closeOffset_nested` — the search for a closing brace passes over nested text.
* `maskFrom_append_of_isBare` — the masked copy shows bare code as it is.
-/

namespace Sharpen

/-! ### Nested brackets -/

/-- All characters of some texts are of a class if this is what computing it gives. -/
theorem forall_mem_mem_of_all {ts : List Text} {p : Char → Bool}
    (h : (ts.all fun t => t.all p) = true) : ∀ t ∈ ts, ∀ c ∈ t, p c = true := by
  simpa only [List.all_eq_true] using h

/-- The brackets of C++ code that are always in pairs. -/
def isBracket (c : Char) : Bool :=
  c == '(' || c == ')' || c == '[' || c == ']' || c == '\x7b' || c == '\x7d'

/-- The braces among them. -/
def isBrace (c : Char) : Bool :=
  c == '\x7b' || c == '\x7d'

/-- Whether the brackets of the class `p` in a text close each other in the right order, if those
that close `awaited` are to come as well. -/
def nestedFrom (p : Char → Bool) : (awaited : List Char) → Text → Bool
  | awaited, [] => awaited.isEmpty
  | awaited, c :: r =>
    if p c then
      match closingBracket c with
      | some close => nestedFrom p (close :: awaited) r
      | none => awaited.head? == some c && nestedFrom p awaited.tail r
    else nestedFrom p awaited r

/-! ### Characters of words -/

/-- A character of a word differs from one that no word has. -/
theorem ne_of_isWord {c d : Char} (h : isWord c = true) (hd : isWord d = false) : c ≠ d := by
  rintro rfl
  rw [h] at hd
  cases hd

/-- A character of a word is no quote. -/
theorem isQuote_eq_false_of_isWord {c : Char} (h : isWord c = true) : isQuote c = false := by
  simp [isQuote, ne_of_isWord h (show isWord '"' = false by decide),
    ne_of_isWord h (show isWord '\'' = false by decide)]

/-- Nor is it a bracket. -/
theorem isBracket_eq_false_of_isWord {c : Char} (h : isWord c = true) : isBracket c = false := by
  rw [← Bool.not_eq_true]
  intro hbracket
  simp only [isBracket, Bool.or_eq_true, beq_iff_eq] at hbracket
  rcases hbracket with ((((rfl | rfl) | rfl) | rfl) | rfl) | rfl <;> exact absurd h (by decide)

/-- A word that a text starts with starts the name in front of the text. -/
theorem exists_append_of_prefix {name : Text} {x : Char} (hx : isWord x = false) {w z : Text}
    (hw : ∀ c ∈ w, isWord c = true) (h : w <+: name ++ x :: z) :
    ∃ v, name = w ++ v := by
  rcases List.prefix_or_prefix_of_prefix h (List.prefix_append name _) with ⟨v, hv⟩ | ⟨v, rfl⟩
  · exact ⟨v, hv.symm⟩
  · rw [List.prefix_append_right_inj] at h
    cases v with
    | nil => exact ⟨[], by simp⟩
    | cons y v =>
        obtain ⟨rfl, -⟩ := List.cons_prefix_cons.mp h
        have hy := hw y (List.mem_append_right _ List.mem_cons_self)
        rw [hx] at hy
        cases hy

/-- Text without brackets is nested. -/
theorem nestedFrom_nil_of_forall {p : Char → Bool} {t : Text} (h : ∀ c ∈ t, p c = false) :
    nestedFrom p [] t = true := by
  induction t with
  | nil => rfl
  | cons c r ih =>
      simp [nestedFrom, h c List.mem_cons_self, ih fun c hc => h c (List.mem_cons_of_mem _ hc)]

/-! ### Searching for a closing brace -/

/-- The bracket that a closing brace belongs to is an opening one. -/
theorem closingBracket_eq_brace {c : Char} : closingBracket c = some '\x7d' ↔ c = '\x7b' := by
  unfold closingBracket
  split <;> simp_all

/-- One more opening bracket needs one more closing bracket. -/
theorem closeOffset_cons_opn (opn close : Char) (n : Nat) (r : Text) :
    closeOffset opn close n (opn :: r) = (closeOffset opn close (n + 1) r).map (· + 1) := by
  rw [closeOffset.eq_def]
  simp

/-- A closing bracket is one less to wait for. -/
theorem closeOffset_cons_close {opn close : Char} (h : close ≠ opn) (n : Nat) (r : Text) :
    closeOffset opn close (n + 1) (close :: r) = (closeOffset opn close n r).map (· + 1) := by
  rw [closeOffset.eq_def]
  simp [h]

/-- Any other character only moves the place of the closing bracket. -/
theorem closeOffset_cons_of_ne {opn close c : Char} (hopn : c ≠ opn) (hclose : c ≠ close) (n : Nat)
    (r : Text) :
    closeOffset opn close n (c :: r) = (closeOffset opn close n r).map (· + 1) := by
  rw [closeOffset.eq_def]
  simp [hopn, hclose]

section

variable {p : Char → Bool} {awaited : List Char} {t : Text}

/-- Where a bracket is awaited first, it is the one that closes. -/
theorem eq_cons_of_head? {c : Char} (h : awaited.head? = some c) : awaited = c :: awaited.tail :=
  (List.cons_head?_tail h).symm

/-- **The search for a closing brace passes over nested text.** -/
theorem closeOffset_nested (hopn : p '\x7b' = true) (hclose : p '\x7d' = true)
    (h : nestedFrom p awaited t = true) (n : Nat) (r : Text) :
    closeOffset '\x7b' '\x7d' (n + awaited.count '\x7d') (t ++ r) =
      (closeOffset '\x7b' '\x7d' n r).map (· + t.length) := by
  have hnext : ∀ {m : Nat} {u : Text},
      closeOffset '\x7b' '\x7d' m (u ++ r) = (closeOffset '\x7b' '\x7d' n r).map (· + u.length) →
      (closeOffset '\x7b' '\x7d' m (u ++ r)).map (· + 1) =
        (closeOffset '\x7b' '\x7d' n r).map (· + (u.length + 1)) := by
    intro m u hu
    rw [hu, Option.map_map]
    rfl
  fun_induction nestedFrom p awaited t with
  | case1 awaited =>
      rw [List.isEmpty_iff.mp h]
      simp
  | case2 awaited c u hc close hclosing ih =>
      have hc' : c ≠ '\x7d' := by
        rintro rfl
        cases hclosing
      rw [List.cons_append, List.length_cons]
      by_cases hbrace : c = '\x7b'
      · subst hbrace
        obtain rfl : '\x7d' = close := Option.some.inj hclosing
        rw [List.count_cons_self, ← Nat.add_assoc] at ih
        rw [closeOffset_cons_opn]
        exact hnext (ih h)
      · have hother : close ≠ '\x7d' := fun heq =>
          hbrace (closingBracket_eq_brace.mp (hclosing.trans (congrArg some heq)))
        rw [List.count_cons_of_ne hother] at ih
        rw [closeOffset_cons_of_ne hbrace hc']
        exact hnext (ih h)
  | case3 awaited c u hc hclosing ih =>
      rw [Bool.and_eq_true, beq_iff_eq] at h
      have hbrace : c ≠ '\x7b' := by
        rintro rfl
        cases hclosing
      rw [List.cons_append, List.length_cons, eq_cons_of_head? h.1]
      by_cases hc' : c = '\x7d'
      · subst hc'
        rw [List.count_cons_self, ← Nat.add_assoc, closeOffset_cons_close hbrace]
        exact hnext (ih h.2)
      · rw [List.count_cons_of_ne hc', closeOffset_cons_of_ne hbrace hc']
        exact hnext (ih h.2)
  | case4 awaited c u hc ih =>
      have hbrace : c ≠ '\x7b' := fun heq => hc (heq ▸ hopn)
      have hc' : c ≠ '\x7d' := fun heq => hc (heq ▸ hclose)
      rw [List.cons_append, List.length_cons, closeOffset_cons_of_ne hbrace hc']
      exact hnext (ih h)

/-- A text closes the braces that it opens, and no others. -/
def ClosesBraces (t : Text) : Prop :=
  ∀ (n : Nat) (r : Text), closeOffset '\x7b' '\x7d' n (t ++ r) =
    (closeOffset '\x7b' '\x7d' n r).map (· + t.length)

/-- Where braces are among the brackets that are nested, a nested text closes its braces. -/
theorem closesBraces_of_nested (hopn : p '\x7b' = true) (hclose : p '\x7d' = true)
    (h : nestedFrom p [] t = true) : ClosesBraces t :=
  closeOffset_nested hopn hclose h

/-- Two texts that close their braces do so one behind the other. -/
theorem ClosesBraces.append {u : Text} (ht : ClosesBraces t) (hu : ClosesBraces u) :
    ClosesBraces (t ++ u) := by
  intro n r
  rw [List.append_assoc, ht, hu, Option.map_map, List.length_append]
  congr 1
  funext k
  simp only [Function.comp_apply]
  omega

/-! ### Splitting -/

/-- Puts a text in front of the first part. -/
def prependHead (t : Text) (parts : List Text) : List Text :=
  t.foldr Text.consHead parts

/-- A text in front of some parts goes to the first of them. -/
@[simp]
theorem prependHead_cons (t u : Text) (parts : List Text) :
    prependHead t (u :: parts) = (t ++ u) :: parts := by
  induction t with
  | nil => rfl
  | cons c t ih => rw [prependHead, List.foldr_cons, ← prependHead, ih]; rfl

/-- Two texts in front go there one after the other. -/
theorem prependHead_append (t u : Text) (parts : List Text) :
    prependHead (t ++ u) parts = prependHead t (prependHead u parts) :=
  List.foldr_append

/-- The place of a splitting scan at a depth, outside of literals. -/
def SplitState.atDepth (d : Int) : SplitState :=
  { depth := d }

/-- A character that is no bracket and no quote, and no separator where one counts. -/
theorem splitFrom_cons_plain {c : Char} {d : Int} (hbracket : isBracket c = false)
    (hquote : isQuote c = false) (hsep : c = ',' → d ≠ 0) (r : Text) :
    splitFrom ',' false (.atDepth d) (c :: r) =
      Text.consHead c (splitFrom ',' false (.atDepth d) r) := by
  simp only [isBracket, Bool.or_eq_false_iff, beq_eq_false_iff_ne, ne_eq] at hbracket
  have hnext : (SplitState.atDepth d).next false c = .atDepth d := by
    simp [SplitState.next, SplitState.atDepth, hquote, hbracket]
  have hcuts : (SplitState.atDepth d).cuts ',' false c = false := by
    by_cases hc : c = ','
    · simp [SplitState.cuts, SplitState.atDepth, hsep hc]
    · simp [SplitState.cuts, hc]
  rw [splitFrom, hcuts, hnext]
  rfl

/-- A bracket changes the depth. -/
theorem splitFrom_cons_bracket {c : Char} (hbracket : isBracket c = true) (d : Int) (r : Text) :
    splitFrom ',' false (.atDepth d) (c :: r) = Text.consHead c
      (splitFrom ',' false (.atDepth (if (closingBracket c).isSome then d + 1 else d - 1)) r) := by
  simp only [isBracket, Bool.or_eq_true, beq_iff_eq] at hbracket
  rcases hbracket with ((((rfl | rfl) | rfl) | rfl) | rfl) | rfl <;> rfl

/-- A word is not split. -/
theorem splitFrom_word {t : Text} (h : ∀ c ∈ t, isWord c = true) (d : Int) (r : Text) :
    splitFrom ',' false (.atDepth d) (t ++ r) =
      prependHead t (splitFrom ',' false (.atDepth d) r) := by
  induction t with
  | nil => rfl
  | cons c t ih =>
      have hc := h c List.mem_cons_self
      rw [List.cons_append, splitFrom_cons_plain (isBracket_eq_false_of_isWord hc)
        (isQuote_eq_false_of_isWord hc) (fun heq => absurd heq (ne_of_isWord hc (by decide))),
        ih fun c hc => h c (List.mem_cons_of_mem _ hc)]
      rfl

/-- **Splitting passes over nested text** inside of brackets. -/
theorem splitFrom_nested (h : nestedFrom isBracket awaited t = true)
    (hquote : ∀ c ∈ t, isQuote c = false) {d : Int} (hd : 0 < d) (r : Text) :
    splitFrom ',' false (.atDepth (d + awaited.length)) (t ++ r) =
      prependHead t (splitFrom ',' false (.atDepth d) r) := by
  fun_induction nestedFrom isBracket awaited t with
  | case1 awaited =>
      rw [List.isEmpty_iff.mp h]
      simp [prependHead]
  | case2 awaited c u hc close hclosing ih =>
      have hdepth : d + (awaited.length : Int) + 1 = d + ((close :: awaited).length : Int) := by
        rw [List.length_cons]
        omega
      rw [List.cons_append, splitFrom_cons_bracket hc, hclosing, Option.isSome_some, if_pos rfl,
        hdepth, ih h fun c hc => hquote c (List.mem_cons_of_mem _ hc)]
      rfl
  | case3 awaited c u hc hclosing ih =>
      rw [Bool.and_eq_true, beq_iff_eq] at h
      have hlength := congrArg List.length (eq_cons_of_head? h.1)
      rw [List.length_cons] at hlength
      have hdepth : d + (awaited.length : Int) - 1 = d + (awaited.tail.length : Int) := by omega
      rw [List.cons_append, splitFrom_cons_bracket hc, hclosing, Option.isSome_none,
        if_neg (by decide), hdepth, ih h.2 fun c hc => hquote c (List.mem_cons_of_mem _ hc)]
      rfl
  | case4 awaited c u hc ih =>
      rw [List.cons_append, splitFrom_cons_plain (by simpa using hc) (hquote c List.mem_cons_self)
        (fun _ => by omega), ih h fun c hc => hquote c (List.mem_cons_of_mem _ hc)]
      rfl

/-! ### The end of a statement -/

/-- The depths of parentheses and braces behind a text, if no statement ends in it that has the
given depths before it. -/
def runsOn : (parens braces : Int) → Text → Option (Int × Int)
  | parens, braces, [] => some (parens, braces)
  | parens, braces, c :: r =>
    if c == '(' then runsOn (parens + 1) braces r
    else if c == ')' then runsOn (parens - 1) braces r
    else if c == '\x7b' then runsOn parens (braces + 1) r
    else if c == '\x7d' then
      if braces - 1 == 0 && parens == 0 then none else runsOn parens (braces - 1) r
    else if c == ';' && parens == 0 && braces == 0 then none
    else runsOn parens braces r

/-- A search that runs on through a text runs on through the next one from the depths it has
reached. -/
theorem runsOn_append (parens braces : Int) (t u : Text) :
    runsOn parens braces (t ++ u) = (runsOn parens braces t).bind fun d => runsOn d.1 d.2 u := by
  fun_induction runsOn parens braces t <;> simp_all [runsOn]

/-- A closing parenthesis leaves the parentheses one less deep. -/
theorem runsOn_paren (parens braces : Int) (r : Text) :
    runsOn parens braces (')' :: r) = runsOn (parens - 1) braces r := rfl

/-- A closing brace that does not end the search leaves the braces one less deep. -/
theorem runsOn_brace {parens braces : Int} (h : ¬ (braces - 1 = 0 ∧ parens = 0)) (r : Text) :
    runsOn parens braces ('\x7d' :: r) = runsOn parens (braces - 1) r := by
  simp [runsOn, h]

/-- The end of a statement is looked for behind the text in which it does not end. -/
theorem statementOffset?_append {parens braces : Int} {d : Int × Int}
    (h : runsOn parens braces t = some d) (u : Text) :
    statementOffset? parens braces (t ++ u) =
      (statementOffset? d.1 d.2 u).map (· + t.length) := by
  have hnext : ∀ {parens braces : Int} {r : Text},
      statementOffset? parens braces (r ++ u) =
        (statementOffset? d.1 d.2 u).map (· + r.length) →
      (statementOffset? parens braces (r ++ u)).map (· + 1) =
        (statementOffset? d.1 d.2 u).map (· + (r.length + 1)) := by
    intro parens braces r hr
    rw [hr, Option.map_map]
    rfl
  fun_induction runsOn parens braces t with
  | case1 parens braces =>
      obtain rfl := Option.some.inj h
      simp
  | case2 parens braces c r hc ih =>
      rw [List.cons_append, List.length_cons, statementOffset?, if_pos hc]
      exact hnext (ih h)
  | case3 parens braces c r hopn hc ih =>
      rw [List.cons_append, List.length_cons, statementOffset?, if_neg hopn, if_pos hc]
      exact hnext (ih h)
  | case4 parens braces c r hopn hclose hc ih =>
      rw [List.cons_append, List.length_cons, statementOffset?, if_neg hopn, if_neg hclose,
        if_pos hc]
      exact hnext (ih h)
  | case5 | case7 => cases h
  | case6 parens braces c r hopn hclose hbrace hc hend ih =>
      rw [List.cons_append, List.length_cons, statementOffset?, if_neg hopn, if_neg hclose,
        if_neg hbrace, if_pos hc, if_neg hend]
      exact hnext (ih h)
  | case8 parens braces c r hopn hclose hbrace hc hend ih =>
      rw [List.cons_append, List.length_cons, statementOffset?, if_neg hopn, if_neg hclose,
        if_neg hbrace, if_neg hc, if_neg hend]
      exact hnext (ih h)

/-- A character that is no bracket and no semicolon. -/
theorem runsOn_plain (h : ∀ c ∈ t, isBracket c = false ∧ c ≠ ';') (parens braces : Int) :
    runsOn parens braces t = some (parens, braces) := by
  induction t with
  | nil => rfl
  | cons c r ih =>
      obtain ⟨hbracket, hsemicolon⟩ := h c List.mem_cons_self
      simp only [isBracket, Bool.or_eq_false_iff, beq_eq_false_iff_ne, ne_eq] at hbracket
      simp [runsOn, hbracket, hsemicolon, ih fun c hc => h c (List.mem_cons_of_mem _ hc)]

/-- **No statement ends in nested text** inside of parentheses. -/
theorem runsOn_nested (h : nestedFrom isBracket awaited t = true) {parens : Int}
    (hparens : 0 < parens) (braces : Int) :
    runsOn (parens + awaited.count ')') (braces + awaited.count '\x7d') t =
      some (parens, braces) := by
  fun_induction nestedFrom isBracket awaited t with
  | case1 awaited =>
      rw [List.isEmpty_iff.mp h]
      simp [runsOn]
  | case2 awaited c u hc close hclosing ih =>
      simp only [isBracket, Bool.or_eq_true, beq_iff_eq] at hc
      rcases hc with ((((rfl | rfl) | rfl) | rfl) | rfl) | rfl
      all_goals cases hclosing
      all_goals simpa [runsOn, Int.add_assoc] using ih h
  | case3 awaited c u hc hclosing ih =>
      rw [Bool.and_eq_true, beq_iff_eq] at h
      rw [eq_cons_of_head? h.1]
      have ih := ih h.2
      simp only [isBracket, Bool.or_eq_true, beq_iff_eq] at hc
      rcases hc with ((((rfl | rfl) | rfl) | rfl) | rfl) | rfl
      all_goals cases hclosing
      · have hparens : parens + ((awaited.tail.count ')' + 1 : Nat) : Int) - 1 =
            parens + awaited.tail.count ')' := by omega
        rw [List.count_cons_self, List.count_cons_of_ne (by decide), runsOn_paren, hparens]
        exact ih
      · rw [List.count_cons_of_ne (by decide), List.count_cons_of_ne (by decide)]
        exact ih
      · have hbraces : braces + ((awaited.tail.count '\x7d' + 1 : Nat) : Int) - 1 =
            braces + awaited.tail.count '\x7d' := by omega
        rw [List.count_cons_self, List.count_cons_of_ne (by decide), runsOn_brace (by omega),
          hbraces]
        exact ih
  | case4 awaited c u hc ih =>
      simp only [isBracket, Bool.or_eq_true, beq_iff_eq, not_or] at hc
      have hend : ¬ (c == ';' && parens + (awaited.count ')' : Int) == 0 &&
          braces + (awaited.count '\x7d' : Int) == 0) = true := by
        simp only [Bool.and_eq_true, beq_iff_eq]
        omega
      simpa [runsOn, hc, hend] using ih h

/-- Nor does one end in a block whose braces are nested, whatever its parentheses are. -/
theorem exists_runsOn_block (h : nestedFrom isBrace awaited t = true) (parens : Int) {braces : Int}
    (hbraces : 0 < braces) :
    ∃ parens', runsOn parens (braces + awaited.count '\x7d') t = some (parens', braces) := by
  fun_induction nestedFrom isBrace awaited t generalizing parens with
  | case1 awaited =>
      rw [List.isEmpty_iff.mp h]
      exact ⟨parens, by simp [runsOn]⟩
  | case2 awaited c u hc close hclosing ih =>
      simp only [isBrace, Bool.or_eq_true, beq_iff_eq] at hc
      rcases hc with rfl | rfl
      all_goals cases hclosing
      simpa [runsOn, Int.add_assoc] using ih h parens
  | case3 awaited c u hc hclosing ih =>
      rw [Bool.and_eq_true, beq_iff_eq] at h
      rw [eq_cons_of_head? h.1]
      simp only [isBrace, Bool.or_eq_true, beq_iff_eq] at hc
      rcases hc with rfl | rfl
      all_goals cases hclosing
      have hbraces' : braces + ((awaited.tail.count '\x7d' + 1 : Nat) : Int) - 1 =
          braces + awaited.tail.count '\x7d' := by omega
      rw [List.count_cons_self, runsOn_brace (by omega), hbraces']
      exact ih h.2 parens
  | case4 awaited c u hc ih =>
      simp only [isBrace, Bool.or_eq_true, beq_iff_eq, not_or] at hc
      have hinside : ¬ braces + (awaited.count '\x7d' : Int) = 0 := by omega
      by_cases hopn : c = '('
      · simpa [runsOn, hopn] using ih h (parens + 1)
      · by_cases hclose : c = ')'
        · simpa [runsOn, hclose] using ih h (parens - 1)
        · simpa [runsOn, hopn, hclose, hc, hinside] using ih h parens

end

/-! ### Bare code -/

/-- Whether a text has neither comments nor literals. -/
def isBare : Text → Bool
  | [] => true
  | c :: r => !isQuote c && !opensComment c r && isBare r

/-- The first character of a bare text opens neither a literal nor a comment, and the rest is bare.
-/
theorem isBare_cons {c : Char} {r : Text} (h : isBare (c :: r) = true) :
    isQuote c = false ∧ opensComment c r = false ∧ isBare r = true := by
  simpa [isBare, and_assoc] using h

/-- A bare text has no quotes. -/
theorem forall_isQuote_of_isBare {t : Text} (h : isBare t = true) : ∀ c ∈ t, isQuote c = false := by
  induction t with
  | nil => simp
  | cons c r ih =>
      obtain ⟨hquote, -, hr⟩ := isBare_cons h
      exact List.forall_mem_cons.mpr ⟨hquote, ih hr⟩

/-- Two bare texts are bare one behind the other, if no comment opens where they meet. -/
theorem isBare_append {t u : Text} (ht : isBare t = true) (hu : isBare u = true)
    (hmeet : opensComment '/' u = false) : isBare (t ++ u) = true := by
  induction t with
  | nil => exact hu
  | cons c r ih =>
      obtain ⟨hquote, hopens, hr⟩ := isBare_cons ht
      simp [isBare, hquote, opensComment_append hopens hmeet, ih hr]

/-- Text without quotes and slashes is bare. -/
theorem isBare_of_notMem {t : Text} (hdouble : '"' ∉ t) (hsingle : '\'' ∉ t) (hslash : '/' ∉ t) :
    isBare t = true := by
  induction t with
  | nil => rfl
  | cons c r ih =>
      rw [List.mem_cons, not_or] at hdouble hsingle hslash
      simp [isBare, isQuote, opensComment, Ne.symm hdouble.1, Ne.symm hsingle.1, Ne.symm hslash.1,
        ih hdouble.2 hsingle.2 hslash.2]

/-- A word is bare. -/
theorem isBare_of_isWord {t : Text} (h : ∀ c ∈ t, isWord c = true) : isBare t = true :=
  isBare_of_notMem (fun hmem => absurd (h _ hmem) (by decide))
    (fun hmem => absurd (h _ hmem) (by decide)) (fun hmem => absurd (h _ hmem) (by decide))

/-- A character that opens nothing is shown. -/
theorem maskFrom_code_of_opens {c : Char} {r : Text} (hquote : isQuote c = false)
    (hopens : opensComment c r = false) : maskFrom .code (c :: r) = c :: maskFrom .code r := by
  by_cases hslash : c = '/'
  · subst hslash
    cases r with
    | nil => rfl
    | cons x r =>
        simp only [opensComment, beq_self_eq_true, Bool.true_and, List.head?_cons,
          Bool.or_eq_false_iff, beq_eq_false_iff_ne, ne_eq, Option.some.injEq] at hopens
        rw [maskFrom]
        · rfl
        · exact fun _ _ h => hopens.1 (List.cons.inj h).1
        · exact fun _ _ h => hopens.2 (List.cons.inj h).1
  · exact maskFrom_code_cons hslash hquote r

/-- **The masked copy shows bare code as it is.** -/
theorem maskFrom_append_of_isBare {t u : Text} (ht : isBare t = true)
    (hmeet : opensComment '/' u = false) : maskFrom .code (t ++ u) = t ++ maskFrom .code u := by
  induction t with
  | nil => rfl
  | cons c r ih =>
      obtain ⟨hquote, hopens, hr⟩ := isBare_cons ht
      rw [List.cons_append, maskFrom_code_of_opens hquote (opensComment_append hopens hmeet), ih hr,
        List.cons_append]

/-- A bare text is its own masked copy. -/
theorem maskCode_of_isBare {t : Text} (h : isBare t = true) : maskCode t = t := by
  have hmask := maskFrom_append_of_isBare (u := []) h rfl
  rwa [List.append_nil, maskFrom, List.append_nil] at hmask

/-! ### Line endings -/

/-- A text without carriage returns stays as it is. -/
theorem normalizeNewlines_append {t : Text} (h : '\r' ∉ t) (u : Text) :
    Text.normalizeNewlines (t ++ u) = t ++ u.normalizeNewlines := by
  induction t with
  | nil => rfl
  | cons c r ih =>
      rw [List.mem_cons, not_or] at h
      have hc : c ≠ '\r' := fun heq => h.1 heq.symm
      rw [List.cons_append, Text.normalizeNewlines]
      · rw [ih h.2, if_neg (by simpa using hc), List.cons_append]
      · exact fun _ heq => absurd heq hc

/-- Without carriage returns, the line breaks of a text are as they should be. -/
theorem normalizeNewlines_eq {t : Text} (h : '\r' ∉ t) : t.normalizeNewlines = t := by
  have happend := normalizeNewlines_append h []
  rwa [Text.normalizeNewlines, List.append_nil] at happend

/-- A text ends with its line endings if no newline follows it. -/
theorem normalizeNewlines_append_cons (t : Text) {c : Char} (hc : c ≠ '\n') (u : Text) :
    Text.normalizeNewlines (t ++ c :: u) =
      t.normalizeNewlines ++ Text.normalizeNewlines (c :: u) := by
  fun_induction Text.normalizeNewlines t with
  | case1 => rfl
  | case2 r ih => rw [List.cons_append, List.cons_append, Text.normalizeNewlines, ih]; rfl
  | case3 x r hx ih =>
      rw [List.cons_append, Text.normalizeNewlines, ih]
      · rfl
      · intro r' h h'
        cases r with
        | nil => exact hc (List.cons.inj h').1
        | cons y r => exact hx r h (by rw [(List.cons.inj h').1])

/-- A block is the same in all line endings. -/
theorem normalizeBlock_normalizeNewlines (t : Text) :
    normalizeBlock t.normalizeNewlines = normalizeBlock t := by
  rw [normalizeBlock, normalizeBlock,
    normalizeNewlines_eq (LineClass.covers_noReturn_iff.mp (LineClass.covers_normalizeNewlines t))]

/-- Normalizing line breaks leaves the brackets nested as they were. -/
theorem nestedFrom_normalizeNewlines {p : Char → Bool} (hreturn : p '\r' = false)
    (hnewline : p '\n' = false) (awaited : List Char) (t : Text) :
    nestedFrom p awaited t.normalizeNewlines = nestedFrom p awaited t := by
  fun_induction Text.normalizeNewlines t generalizing awaited with
  | case1 => rfl
  | case2 r ih => simp [nestedFrom, hreturn, hnewline, ih]
  | case3 c r hc ih =>
      by_cases h : c = '\r'
      · simp [nestedFrom, h, hreturn, hnewline, ih]
      · simp [nestedFrom, h, ih]

/-- A text starts with its first character when its line breaks are normalized, or with a newline in
place of a carriage return. -/
theorem head?_normalizeNewlines (t : Text) :
    t.normalizeNewlines.head? = t.head?.map fun c => if c == '\r' then '\n' else c := by
  fun_cases Text.normalizeNewlines t <;> rfl

/-- A bare text is bare with its line breaks normalized. -/
theorem isBare_normalizeNewlines {t : Text} (h : isBare t = true) :
    isBare t.normalizeNewlines = true := by
  have hopens : ∀ {c : Char} {r : Text}, opensComment c r = false →
      opensComment c r.normalizeNewlines = false := by
    intro c r hc
    cases r with
    | nil => exact hc
    | cons x r =>
        rw [opensComment, head?_normalizeNewlines]
        by_cases hx : x = '\r'
        · simp [hx]
        · simpa [opensComment, hx] using hc
  fun_induction Text.normalizeNewlines t with
  | case1 => rfl
  | case2 r ih =>
      have hr := (isBare_cons (isBare_cons h).2.2).2.2
      simp [isBare, ih hr, isQuote, opensComment]
  | case3 c r hc ih =>
      obtain ⟨hquote, hslash, hr⟩ := isBare_cons h
      by_cases hreturn : c = '\r'
      · simp [isBare, hreturn, ih hr, isQuote, opensComment]
      · simp [isBare, hreturn, hquote, hopens hslash, ih hr]

end Sharpen
