/-
Indented text as its lines.

Blank lines do not count.  Of any other line the number of bytes that it is indented by and its text
without the blanks around it are all that reading takes from it: the text says what the value is,
and the indentation what it lies beneath.

Reading goes down the lines with the lines that are still open.  Line after line they are the lines
that the rule of the nearest shallower line keeps open (`Standing`), and a line that is not taken in
is one that offends: a quoted value that is at fault, or a line beyond the first that lies beneath
none.  So what is read is the tree of the rule, and an error is that of the first line that offends.
-/
import TreeRules.Proofs.Traversal
import TreeRules.Proofs.ValueTree.Literal
import TreeRules.Proofs.ValueTree.Nearest
import TreeRules.ValueTree.Format

namespace TreeRules.ValueTree

open TreeRules.Text

/-! ### What a line says -/

/-- A line that a node stands on: where it starts, the bytes that it is indented by, and its text
without the blanks around it. -/
structure NodeLine where
  position : Nat
  width : Nat
  text : List Char

/-- A line of a text as a line that a node stands on. -/
def NodeLine.of (line : Placed (List Char)) : NodeLine :=
  ⟨line.position, byteWidth (line.value.takeWhile isBlank), trim line.value⟩

/-- The lines of a text, without the blank ones. -/
def nodeLines (text : String) : List NodeLine :=
  ((placedLines text.toList).map .of).filter (!·.text.isEmpty)

/-- The value of a line; empty if its quoted value is at fault. -/
def NodeLine.value (line : NodeLine) : String :=
  match readLine (line.position + line.width) line.text with
  | .ok value => value
  | .error _ => ""

/-- What is written between quotes, and what it stands for: a backslash gives the next character
another meaning, and any other character stands for itself. -/
inductive Unquotes : List Char → List Char → Prop where
  | nil : Unquotes [] []
  | plain {c : Char} {cs ds : List Char} (hquote : c ≠ '"') (hbackslash : c ≠ '\\')
      (h : Unquotes cs ds) : Unquotes (c :: cs) (c :: ds)
  | escaped (c : Char) {cs ds : List Char} (h : Unquotes cs ds) :
      Unquotes ('\\' :: c :: cs) (unescapeChar c :: ds)

/-- The text of a line and its value: a quoted value and nothing else, or any text that does not
start with a quote. -/
inductive Denotes : List Char → String → Prop where
  | bare {cs : List Char} (h : cs.head? ≠ some '"') : Denotes cs (String.ofList cs)
  | quoted {body value : List Char} (h : Unquotes body value) :
      Denotes ('"' :: (body ++ ['"'])) (String.ofList value)

/-- The text of a line, which stands at `start`, starts with a quoted value that is at fault. -/
inductive QuoteFault (start : Nat) : List Char → FormatError → Prop where
  | unterminated {cs : List Char}
      (h : ∀ body value rest, Unquotes body value → cs ≠ body ++ '"' :: rest) :
      QuoteFault start ('"' :: cs) (.unterminated start)
  | textAfterQuote {body value rest : List Char} (h : Unquotes body value) (hrest : rest ≠ []) :
      QuoteFault start ('"' :: (body ++ '"' :: rest))
        (.unexpected .textAfterQuote (start + byteWidth ('"' :: (body ++ ['"']))))

variable {cs : List Char} {start : Nat} {value : String} {e : FormatError}

/-- **A quoted value ends at the first quote without a backslash before it.** -/
theorem readQuoted_eq_some_iff {part : Taken (List Char)} :
    readQuoted cs = some part ↔
      ∃ body, cs = body ++ '"' :: part.rest ∧ Unquotes body part.value ∧
        part.width = byteWidth body + 1 := by
  constructor
  · intro h
    fun_induction readQuoted cs generalizing part with
    | case1 => simp at h
    | case2 => simp at h
    | case3 c cs ih =>
        obtain ⟨inner, hinner, rfl⟩ := Option.map_eq_some_iff.mp h
        obtain ⟨body, rfl, hbody, hwidth⟩ := ih hinner
        refine ⟨'\\' :: c :: body, rfl, .escaped c hbody, ?_⟩
        have hsize : ('\\' : Char).utf8Size = 1 := rfl
        simp only [Taken.cons, hwidth, byteWidth_cons, hsize]
        omega
    | case4 cs =>
        obtain rfl := Option.some.inj h
        exact ⟨[], rfl, .nil, rfl⟩
    | case5 c cs hlast hescape hquote ih =>
        obtain ⟨inner, hinner, rfl⟩ := Option.map_eq_some_iff.mp h
        obtain ⟨body, rfl, hbody, hwidth⟩ := ih hinner
        have hbackslash : c ≠ '\\' := by
          intro hc
          cases body with
          | nil => exact hescape '"' inner.rest hc rfl
          | cons d body => exact hescape d (body ++ '"' :: inner.rest) hc rfl
        refine ⟨c :: body, rfl, .plain hquote hbackslash hbody, ?_⟩
        simp only [Taken.cons, hwidth, byteWidth_cons]
        omega
  · rintro ⟨body, rfl, hbody, hwidth⟩
    obtain ⟨value, width, rest⟩ := part
    simp only at hbody hwidth
    subst hwidth
    induction hbody with
    | nil => exact (readQuoted_cons (by decide) rest).trans (if_pos rfl)
    | @plain c cs ds hquote hbackslash _ ih =>
        rw [List.cons_append, readQuoted_cons hbackslash, if_neg hquote, ih]
        simp [Taken.cons, Nat.add_assoc]
    | @escaped c cs ds _ ih =>
        rw [List.cons_append, List.cons_append, readQuoted_backslash, ih]
        have hsize : ('\\' : Char).utf8Size = 1 := rfl
        simp [Taken.cons, Nat.add_assoc, hsize]

theorem readLine_of_head?_ne (h : cs.head? ≠ some '"') :
    readLine start cs = .ok (String.ofList cs) := by
  unfold readLine
  split
  · simp at h
  · rfl

/-- **A line is read as the value that its text stands for**, -/
theorem readLine_eq_ok_iff : readLine start cs = .ok value ↔ Denotes cs value := by
  constructor
  · intro h
    by_cases hhead : cs.head? = some '"'
    · obtain ⟨cs, rfl⟩ := List.head?_eq_some_iff.mp hhead
      cases hquoted : readQuoted cs with
      | none => simp [readLine, hquoted] at h
      | some part =>
          simp only [readLine, hquoted, List.isEmpty_iff] at h
          obtain ⟨body, rfl, hbody, -⟩ := readQuoted_eq_some_iff.mp hquoted
          by_cases hrest : part.rest = []
          · rw [if_pos hrest] at h
            obtain rfl := Except.ok.inj h
            rw [hrest]
            exact .quoted hbody
          · rw [if_neg hrest] at h
            cases h
    · rw [readLine_of_head?_ne hhead] at h
      obtain rfl := Except.ok.inj h
      exact .bare hhead
  · intro h
    cases h with
    | bare h => exact readLine_of_head?_ne h
    | @quoted body value h =>
        have hquoted : readQuoted (body ++ ['"']) = some ⟨value, byteWidth body + 1, []⟩ :=
          readQuoted_eq_some_iff.mpr ⟨body, rfl, h, rfl⟩
        simp [readLine, hquoted]

/-- The text after a quoted value stands behind the quote that closes it. -/
theorem position_textAfterQuote (start : Nat) (body : List Char) :
    start + 1 + (byteWidth body + 1) = start + byteWidth ('"' :: (body ++ ['"'])) := by
  have hsize : ('"' : Char).utf8Size = 1 := rfl
  simp only [byteWidth_cons, byteWidth_append, byteWidth_nil, hsize]
  omega

/-- and is refused for the fault of its quoted value. -/
theorem readLine_eq_error_iff : readLine start cs = .error e ↔ QuoteFault start cs e := by
  constructor
  · intro h
    by_cases hhead : cs.head? = some '"'
    · obtain ⟨cs, rfl⟩ := List.head?_eq_some_iff.mp hhead
      cases hquoted : readQuoted cs with
      | none =>
          simp only [readLine, hquoted, Except.error.injEq] at h
          rw [← h]
          refine .unterminated fun body value rest hbody heq => ?_
          have hsome : readQuoted cs = some ⟨value, byteWidth body + 1, rest⟩ :=
            readQuoted_eq_some_iff.mpr ⟨body, heq, hbody, rfl⟩
          rw [hquoted] at hsome
          cases hsome
      | some part =>
          simp only [readLine, hquoted, List.isEmpty_iff] at h
          obtain ⟨body, rfl, hbody, hwidth⟩ := readQuoted_eq_some_iff.mp hquoted
          by_cases hrest : part.rest = []
          · rw [if_pos hrest] at h
            cases h
          · rw [if_neg hrest, hwidth, position_textAfterQuote] at h
            obtain rfl := Except.error.inj h
            exact .textAfterQuote hbody hrest
    · rw [readLine_of_head?_ne hhead] at h
      cases h
  · intro h
    cases h with
    | @unterminated cs h =>
        cases hquoted : readQuoted cs with
        | none => simp [readLine, hquoted]
        | some part =>
            obtain ⟨body, heq, hbody, -⟩ := readQuoted_eq_some_iff.mp hquoted
            exact absurd heq (h body _ _ hbody)
    | @textAfterQuote body value rest h hrest =>
        have hquoted : readQuoted (body ++ '"' :: rest) =
            some ⟨value, byteWidth body + 1, rest⟩ :=
          readQuoted_eq_some_iff.mpr ⟨body, rfl, h, rfl⟩
        simp only [readLine, hquoted, List.isEmpty_iff, if_neg hrest, position_textAfterQuote]

/-- A text whose quoted value is at fault stands for no value, -/
theorem QuoteFault.not_denotes (h : QuoteFault start cs e) (value : String) :
    ¬ Denotes cs value := by
  intro hdenotes
  cases (readLine_eq_error_iff.mpr h).symm.trans (readLine_eq_ok_iff.mpr hdenotes)

/-- and there is one fault only. -/
theorem QuoteFault.unique {e' : FormatError} (h : QuoteFault start cs e)
    (h' : QuoteFault start cs e') : e = e' :=
  Except.error.inj ((readLine_eq_error_iff.mpr h).symm.trans (readLine_eq_error_iff.mpr h'))

/-! ### Lines that offend -/

/-- How far a line is indented. -/
def lineWidth (lines : List NodeLine) (i : Nat) : Nat := (lines.map (·.width)).getD i 0

/-- Line `i` cannot be taken in: its quoted value is at fault, or else it is not the first and no
line before it is indented less. -/
inductive Offends (lines : List NodeLine) (i : Nat) : FormatError → Prop where
  | quote {line : NodeLine} {e : FormatError} (here : lines[i]? = some line)
      (fault : QuoteFault (line.position + line.width) line.text e) : Offends lines i e
  | secondRoot {line : NodeLine} {value : String} (here : lines[i]? = some line)
      (sound : Denotes line.text value) (later : 0 < i)
      (alone : ∀ j, j < i → lineWidth lines i ≤ lineWidth lines j) :
      Offends lines i (.secondRoot line.position)

/-- How far each line is indented, and its value. -/
def entriesOf (lines : List NodeLine) : List (Nat × String) :=
  lines.map fun line => (line.width, line.value)

variable {lines : List NodeLine} {line : NodeLine} {i : Nat} {stack : List OpenLine}

theorem value_of_denotes (h : Denotes line.text value) : line.value = value := by
  rw [NodeLine.value, readLine_eq_ok_iff.mpr h]

theorem length_entriesOf (lines : List NodeLine) : (entriesOf lines).length = lines.length := by
  simp [entriesOf]

theorem widthAt_entriesOf (lines : List NodeLine) (i : Nat) :
    widthAt (entriesOf lines) i = lineWidth lines i := by
  simp only [widthAt, lineWidth, entriesOf, List.getD_eq_getElem?_getD, List.getElem?_map]
  cases lines[i]? <;> rfl

theorem widthAt_of_getElem? (here : lines[i]? = some line) :
    widthAt (entriesOf lines) i = line.width := by
  simp [widthAt, entriesOf, here]

theorem valueAt_of_getElem? (here : lines[i]? = some line) :
    valueAt (entriesOf lines) i = line.value := by
  simp [valueAt, entriesOf, here]

/-- A line offends in one way only. -/
theorem Offends.unique {e' : FormatError} (h : Offends lines i e) (h' : Offends lines i e') :
    e = e' := by
  cases h with
  | quote here fault =>
      cases h' with
      | quote here' fault' =>
          obtain rfl := Option.some.inj (here.symm.trans here')
          exact fault.unique fault'
      | secondRoot here' sound' =>
          obtain rfl := Option.some.inj (here.symm.trans here')
          exact absurd sound' (fault.not_denotes _)
  | secondRoot here sound =>
      cases h' with
      | quote here' fault' =>
          obtain rfl := Option.some.inj (here.symm.trans here')
          exact absurd sound (fault'.not_denotes _)
      | secondRoot here' =>
          obtain rfl := Option.some.inj (here.symm.trans here')
          rfl

/-- A line that is sound and lies beneath another one, or comes first, does not offend. -/
theorem not_offends (here : lines[i]? = some line) (sound : Denotes line.text value)
    (h : i = 0 ∨ ∃ j, j < i ∧ lineWidth lines j < lineWidth lines i) : ¬ Offends lines i e := by
  intro hoffends
  cases hoffends with
  | quote here' fault =>
      obtain rfl := Option.some.inj (here.symm.trans here')
      exact fault.not_denotes _ sound
  | secondRoot _ _ later alone =>
      rcases h with h | ⟨j, hj, hless⟩
      · omega
      · have := alone j hj
        omega

/-! ### Reading -/

/-- Takes in a line that a node stands on. -/
def takeNodeLine (stack : List OpenLine) (line : NodeLine) :
    Except FormatError (List OpenLine) := do
  let value ← readLine (line.position + line.width) line.text
  match OpenLine.takeIn line.width value stack with
  | none => throw (.secondRoot line.position)
  | some stack => return stack

theorem takeLine_eq (stack : List OpenLine) (line : Placed (List Char)) :
    takeLine stack line =
      if (NodeLine.of line).text.isEmpty then .ok stack else takeNodeLine stack (.of line) := by
  unfold takeLine
  by_cases h : (NodeLine.of line).text.isEmpty = true
  · rw [if_pos h]
    exact if_pos h
  · rw [if_neg h]
    exact if_neg h

/-- Blank lines are passed over. -/
theorem foldlM_takeLine (lines : List (Placed (List Char))) (stack : List OpenLine) :
    lines.foldlM takeLine stack =
      ((lines.map .of).filter (!·.text.isEmpty)).foldlM takeNodeLine stack := by
  induction lines generalizing stack with
  | nil => rfl
  | cons line lines ih =>
      rw [List.foldlM_cons, takeLine_eq, List.map_cons, List.filter_cons]
      cases (NodeLine.of line).text.isEmpty with
      | true => exact ih stack
      | false =>
          simp only [Bool.false_eq_true, if_false, Bool.not_false, if_true, List.foldlM_cons, ih]

/-- The open lines once `n` lines have been taken in. -/
inductive Stacked (entries : List (Nat × String)) : (n : Nat) → List OpenLine → Prop where
  | none : Stacked entries 0 []
  | some {i : Nat} {stack : List OpenLine} (h : Standing entries (i + 1) i stack) :
      Stacked entries (i + 1) stack

/-- **A line is taken in, or it offends.** -/
theorem takeNodeLine_cases (here : lines[i]? = some line) (h : Stacked (entriesOf lines) i stack) :
    (∃ stack', takeNodeLine stack line = .ok stack' ∧ Stacked (entriesOf lines) (i + 1) stack' ∧
      ∀ e, ¬ Offends lines i e) ∨
    (∃ e, takeNodeLine stack line = .error e ∧ Offends lines i e) := by
  unfold takeNodeLine
  cases hread : readLine (line.position + line.width) line.text with
  | error e => exact .inr ⟨e, rfl, .quote here (readLine_eq_error_iff.mp hread)⟩
  | ok value =>
      have sound := readLine_eq_ok_iff.mp hread
      have hvalue : valueAt (entriesOf lines) i = value := by
        rw [valueAt_of_getElem? here, value_of_denotes sound]
      cases h with
      | none =>
          have hfirst : openAt (entriesOf lines) 1 0 = ⟨line.width, value, []⟩ := by
            rw [openAt, childLines_self, widthAt_of_getElem? here, hvalue]
            rfl
          refine .inl ⟨[⟨line.width, value, []⟩], rfl, ?_, ?_⟩
          · rw [← hfirst]
            exact .some (.first fun k _ _ => by omega)
          · exact fun e => not_offends here sound (.inl rfl)
      | @some i _ h =>
          have hlength : i + 1 < (entriesOf lines).length := by
            rw [length_entriesOf]
            exact (List.getElem?_eq_some_iff.mp here).1
          have htake := h.takeIn hlength
          rw [widthAt_of_getElem? here, hvalue] at htake
          rcases htake with ⟨j, stack', hparent, htake, hstanding⟩ | ⟨hparent, htake⟩
          · refine .inl ⟨stack', by simp only [bind, Except.bind, htake]; rfl, .some hstanding, ?_⟩
            obtain ⟨hj, hless, -⟩ := parentLine_eq_some_iff.mp hparent
            rw [widthAt_entriesOf, widthAt_entriesOf] at hless
            exact fun e => not_offends here sound (.inr ⟨j, hj, hless⟩)
          · refine .inr ⟨.secondRoot line.position, ?_, ?_⟩
            · simp only [bind, Except.bind, htake]
              rfl
            · refine .secondRoot here sound (Nat.succ_pos i) fun j hj => ?_
              have hle := parentLine_eq_none_iff.mp hparent j hj
              rwa [widthAt_entriesOf, widthAt_entriesOf] at hle

/-- **All lines are taken in, or the first one that offends is refused.** -/
theorem foldlM_takeNodeLine_cases (rest : List NodeLine) {i : Nat} {stack : List OpenLine}
    (hrest : lines.drop i = rest) (h : Stacked (entriesOf lines) i stack) :
    (∃ stack', rest.foldlM takeNodeLine stack = .ok stack' ∧
      Stacked (entriesOf lines) (i + rest.length) stack' ∧ ∀ j, i ≤ j → ∀ e, ¬ Offends lines j e) ∨
    (∃ j e, rest.foldlM takeNodeLine stack = .error e ∧ i ≤ j ∧ Offends lines j e ∧
      ∀ k, i ≤ k → k < j → ∀ e', ¬ Offends lines k e') := by
  induction rest generalizing i stack with
  | nil =>
      have hle : lines.length ≤ i := List.drop_eq_nil_iff.mp hrest
      refine .inl ⟨stack, rfl, h, ?_⟩
      intro j hij e hoffends
      have hnone : lines[j]? = none := List.getElem?_eq_none (by omega)
      cases hoffends with
      | quote here => simp [hnone] at here
      | secondRoot here => simp [hnone] at here
  | cons line rest ih =>
      have here : lines[i]? = some line := by
        rw [← List.head?_drop, hrest]
        rfl
      have hdrop : lines.drop (i + 1) = rest := by
        rw [← List.drop_drop, hrest]
        rfl
      rw [List.foldlM_cons]
      rcases takeNodeLine_cases here h with ⟨stack', htake, hstacked, hsound⟩ | ⟨e, htake, hoffends⟩
      · rw [htake]
        -- the lines before a later one are this line and those behind it
        have hbefore : ∀ {n}, (∀ k, i + 1 ≤ k → k < n → ∀ e, ¬ Offends lines k e) →
            ∀ k, i ≤ k → k < n → ∀ e, ¬ Offends lines k e := by
          intro n hlater k hik hkn
          by_cases heq : k = i
          · rw [heq]
            exact hsound
          · exact hlater k (by omega) hkn
        rcases ih hdrop hstacked with
          ⟨stack'', hrun, hend, hlater⟩ | ⟨j, e, hrun, hij, hoffends, hlater⟩
        · refine .inl ⟨stack'', hrun, ?_, fun j hij => ?_⟩
          · rwa [List.length_cons, Nat.add_comm rest.length 1, ← Nat.add_assoc]
          · exact hbefore (fun k hik _ => hlater k hik) j hij (Nat.lt_succ_self j)
        · exact .inr ⟨j, e, hrun, by omega, hoffends, hbefore hlater⟩
      · rw [htake]
        exact .inr ⟨i, e, rfl, Nat.le_refl i, hoffends, fun k hik hki => by omega⟩

/-- What reading an indented text comes to, in cases. -/
theorem readIndented_cases (text : String) :
    (nodeLines text = [] ∧ readIndented text = .error .empty) ∨
    (nodeLines text ≠ [] ∧ readIndented text = .ok (treeAt (entriesOf (nodeLines text)) 0) ∧
      ∀ i e, ¬ Offends (nodeLines text) i e) ∨
    (∃ i e, readIndented text = .error e ∧ Offends (nodeLines text) i e ∧
      ∀ j, j < i → ∀ e', ¬ Offends (nodeLines text) j e') := by
  unfold readIndented
  rw [foldlM_takeLine, ← nodeLines]
  rcases foldlM_takeNodeLine_cases (nodeLines text) List.drop_zero .none with
    ⟨stack, hrun, hstacked, hsound⟩ | ⟨i, e, hrun, -, hoffends, hbefore⟩
  · rw [hrun]
    rw [Nat.zero_add, ← length_entriesOf] at hstacked
    cases hlines : nodeLines text with
    | nil =>
        rw [hlines] at hstacked
        cases hstacked
        exact .inl ⟨rfl, rfl⟩
    | cons line lines =>
        refine .inr (.inl ⟨by simp, ?_, fun i => ?_⟩)
        · have hpos : 0 < (entriesOf (nodeLines text)).length := by
            simp [length_entriesOf, hlines]
          rw [← hlines]
          cases hn : (entriesOf (nodeLines text)).length with
          | zero => omega
          | succ n =>
              rw [hn] at hstacked
              cases hstacked with
              | some h =>
                  rw [← hn] at h
                  simp only [bind, Except.bind, h.closeAll (by omega)]
                  rfl
        · rw [← hlines]
          exact hsound i (Nat.zero_le i)
  · rw [hrun]
    exact .inr (.inr ⟨i, e, rfl, hoffends, fun j hj => hbefore j (Nat.zero_le j) hj⟩)

theorem not_offends_nil (i : Nat) (e : FormatError) : ¬ Offends [] i e := by
  intro h
  cases h with
  | quote here => simp at here
  | secondRoot here => simp at here

/-- **A text is read if it has a line and none offends**, -/
theorem readIndented_eq_ok_iff {text : String} {tree : ValueTree} :
    readIndented text = .ok tree ↔
      nodeLines text ≠ [] ∧ (∀ i e, ¬ Offends (nodeLines text) i e) ∧
        tree = treeAt (entriesOf (nodeLines text)) 0 := by
  rcases readIndented_cases text with
    ⟨hnil, hread⟩ | ⟨hne, hread, hsound⟩ | ⟨i, e, hread, hoffends, -⟩
  · simp [hread, hnil]
  · rw [hread, Except.ok.injEq]
    exact ⟨fun h => ⟨hne, hsound, h.symm⟩, fun h => h.2.2.symm⟩
  · rw [hread]
    exact ⟨fun h => (by cases h), fun h => absurd hoffends (h.2.1 i e)⟩

/-- and refused for the first line that offends. -/
theorem readIndented_eq_error_iff {text : String} :
    readIndented text = .error e ↔
      (nodeLines text = [] ∧ e = .empty) ∨
      ∃ i, Offends (nodeLines text) i e ∧ ∀ j, j < i → ∀ e', ¬ Offends (nodeLines text) j e' := by
  constructor
  · intro h
    rcases readIndented_cases text with
      ⟨hnil, hread⟩ | ⟨-, hread, -⟩ | ⟨i, e', hread, hoffends, hfirst⟩
    · rw [hread] at h
      exact .inl ⟨hnil, (Except.error.inj h).symm⟩
    · rw [hread] at h
      cases h
    · rw [hread] at h
      obtain rfl := Except.error.inj h
      exact .inr ⟨i, hoffends, hfirst⟩
  · intro h
    rcases readIndented_cases text with
      ⟨hnil, hread⟩ | ⟨hne, -, hsound⟩ | ⟨i, e', hread, hoffends, hfirst⟩
    · rcases h with ⟨-, rfl⟩ | ⟨i, hoffends, -⟩
      · exact hread
      · rw [hnil] at hoffends
        exact absurd hoffends (not_offends_nil i e)
    · rcases h with ⟨hnil, -⟩ | ⟨i, hoffends, -⟩
      · exact absurd hnil hne
      · exact absurd hoffends (hsound i e)
    · rcases h with ⟨hnil, -⟩ | ⟨j, hoffends', hfirst'⟩
      · rw [hnil] at hoffends
        exact absurd hoffends (not_offends_nil i e')
      · -- of two first lines that offend neither comes before the other
        have hij : i = j := by
          by_contra hne
          rcases Nat.lt_or_gt_of_ne hne with hlt | hlt
          · exact hfirst' i hlt e' hoffends
          · exact hfirst j hlt e hoffends'
        subst hij
        rw [hread, hoffends.unique hoffends']

/-! ### The rule -/

/-- No line offends if every one has a value and every one but the first lies beneath another. -/
theorem forall_not_offends_iff :
    (∀ i e, ¬ Offends lines i e) ↔
      (∀ line ∈ lines, ∃ value, Denotes line.text value) ∧
        ∀ i, 0 < i → i < lines.length → ∃ j, j < i ∧ lineWidth lines j < lineWidth lines i := by
  constructor
  · intro h
    have hsound : ∀ line ∈ lines, ∃ value, Denotes line.text value := by
      intro line hline
      obtain ⟨i, here⟩ := List.mem_iff_getElem?.mp hline
      cases hread : readLine (line.position + line.width) line.text with
      | ok value => exact ⟨value, readLine_eq_ok_iff.mp hread⟩
      | error e => exact absurd (.quote here (readLine_eq_error_iff.mp hread)) (h i e)
    refine ⟨hsound, ?_⟩
    intro i hpos hi
    have here : lines[i]? = some lines[i] := List.getElem?_eq_getElem hi
    obtain ⟨value, sound⟩ := hsound lines[i] (List.getElem_mem hi)
    by_contra hnone
    refine h i _ (.secondRoot here sound hpos fun j hj => ?_)
    by_contra hlt
    exact hnone ⟨j, hj, by omega⟩
  · rintro ⟨hsound, hbeneath⟩ i e hoffends
    have hline : ∃ line, lines[i]? = some line := by
      cases hoffends with
      | quote here => exact ⟨_, here⟩
      | secondRoot here => exact ⟨_, here⟩
    obtain ⟨line, here⟩ := hline
    obtain ⟨value, sound⟩ := hsound line (List.mem_of_getElem? here)
    refine not_offends here sound ?_ hoffends
    by_cases hzero : i = 0
    · exact .inl hzero
    · exact .inr (hbeneath i (by omega) (List.getElem?_eq_some_iff.mp here).1)

/-- A text that does not start with a quote always stands for a value. -/
theorem exists_denotes_iff :
    (∃ value, Denotes cs value) ↔
      (cs.head? = some '"' → ∃ body value, Unquotes body value ∧ cs = '"' :: (body ++ ['"'])) := by
  constructor
  · rintro ⟨value, h⟩ hhead
    cases h with
    | bare h => exact absurd hhead h
    | quoted h => exact ⟨_, _, h, rfl⟩
  · intro h
    by_cases hhead : cs.head? = some '"'
    · obtain ⟨body, value, hbody, rfl⟩ := h hhead
      exact ⟨_, .quoted hbody⟩
    · exact ⟨_, .bare hhead⟩

/-- Where every line has a value, the entries are the indentations with these values. -/
theorem entriesOf_eq_zip {values : List String}
    (h : List.Forall₂ (fun line value => Denotes line.text value) lines values) :
    entriesOf lines = (lines.map (·.width)).zip values := by
  induction h with
  | nil => rfl
  | cons hline _ ih => simp [entriesOf, value_of_denotes hline, ← ih]

/-- **Indentation means the nearest shallower line.**

A text is read exactly if it has a line that is not blank, every line that starts with a quote is
one quoted value and nothing else, and every line but the first has a line before it that is
indented less.  The tree is then that of the nearest shallower lines, each node with the value of
its line and with the lines beneath it from the top.  Otherwise the error is that of the first line
that offends, and a text of blank lines is empty. -/
theorem readIndented_iff_nearest (text : String) :
    ((∃ tree, TextFormat.indented.read text = .ok tree) ↔
      nodeLines text ≠ [] ∧
      (∀ line ∈ nodeLines text, line.text.head? = some '"' →
        ∃ body value, Unquotes body value ∧ line.text = '"' :: (body ++ ['"'])) ∧
      ∀ i, 0 < i → i < (nodeLines text).length →
        ∃ j, j < i ∧ lineWidth (nodeLines text) j < lineWidth (nodeLines text) i) ∧
    (∀ tree, TextFormat.indented.read text = .ok tree ↔
      nodeLines text ≠ [] ∧
      (∀ i, 0 < i → i < (nodeLines text).length →
        ∃ j, j < i ∧ lineWidth (nodeLines text) j < lineWidth (nodeLines text) i) ∧
      ∃ values, List.Forall₂ (fun line value => Denotes line.text value) (nodeLines text) values ∧
        tree = treeAt (((nodeLines text).map (·.width)).zip values) 0) ∧
    (∀ e, TextFormat.indented.read text = .error e ↔
      (nodeLines text = [] ∧ e = .empty) ∨
      ∃ i, Offends (nodeLines text) i e ∧ ∀ j, j < i → ∀ e', ¬ Offends (nodeLines text) j e') := by
  show ((∃ tree, readIndented text = .ok tree) ↔ _) ∧ (∀ tree, readIndented text = .ok tree ↔ _) ∧
    (∀ e, readIndented text = .error e ↔ _)
  refine ⟨?_, fun tree => ?_, fun e => readIndented_eq_error_iff⟩
  · simp only [readIndented_eq_ok_iff, forall_not_offends_iff, exists_denotes_iff]
    exact ⟨fun ⟨_, hne, hall, _⟩ => ⟨hne, hall⟩, fun ⟨hne, hall⟩ => ⟨_, hne, hall, rfl⟩⟩
  · rw [readIndented_eq_ok_iff, forall_not_offends_iff]
    constructor
    · rintro ⟨hne, ⟨hsound, hbeneath⟩, rfl⟩
      obtain ⟨values, hvalues⟩ := exists_forall₂_iff.mpr hsound
      exact ⟨hne, hbeneath, values, hvalues, by rw [entriesOf_eq_zip hvalues]⟩
    · rintro ⟨hne, hbeneath, values, hvalues, rfl⟩
      have hsound := exists_forall₂_iff.mp ⟨values, hvalues⟩
      exact ⟨hne, ⟨hsound, hbeneath⟩, by rw [entriesOf_eq_zip hvalues]⟩

/-- An ideographic space is three bytes wide, so the line with two spaces lies beneath the first;
the blank line and the carriage return count for nothing. -/
example : TextFormat.indented.read "a\n\u3000b\n\n  c\r\n   d\n" =
    .ok (.node "a" [.node "b" [], .node "c" [.node "d" []]]) := by rfl

end TreeRules.ValueTree
