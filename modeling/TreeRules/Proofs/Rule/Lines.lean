/-
Rule texts are their lines.

A line that is neither blank nor a comment holds a rule, and what stands on it without the blanks
around it is read as it would be alone.  So the rules of a text are those of its lines, and the
first line that is refused says why the text is.  The error is that line's own, and only its
position is told in the text: it counts from where the line stands.
-/
import TreeRules.Proofs.Text.Position
import TreeRules.Proofs.Traversal
import TreeRules.Rule.Basic

namespace TreeRules

open TreeRules.Text

/-! ### Errors elsewhere -/

namespace CompileError

/-- The same fault, told at that position. -/
def moveTo (position : Nat) : CompileError → CompileError
  | malformed fault _ => malformed fault position
  | undeclaredCapture name _ => undeclaredCapture name position
  | invalidQuantifier fault _ => invalidQuantifier fault position
  | unknownPredicate name _ => unknownPredicate name position

/-- **Only the position is shifted.** -/
theorem shift_eq_moveTo (offset : Nat) (e : CompileError) :
    e.shift offset = e.moveTo (e.position + offset) := by
  cases e <;> rfl

@[simp]
theorem position_moveTo (position : Nat) (e : CompileError) :
    (e.moveTo position).position = position := by
  cases e <;> rfl

end CompileError

namespace Rule

/-! ### Lines that hold a rule -/

/-- The line, without the blanks around it, is neither blank nor a comment. -/
def holdsRule (line : Placed (List Char)) : Bool :=
  !(line.value.isEmpty || line.value.head? == some '#')

/-- The lines of a text that hold a rule, without the blanks around them. -/
def ruleLines (text : String) : List (Placed (List Char)) :=
  ((placedLines text.toList).map trimmedLine).filter holdsRule

/-- Reads the rule on such a line. -/
def readPlaced (settings : Settings) (line : Placed (List Char)) : Except CompileError Rule :=
  match Rule.read (String.ofList line.value) .once settings with
  | .error e => .error (e.shift line.position)
  | .ok rule => .ok rule

variable {text : String} {settings : Settings} {line : Placed (List Char)} {rule : Rule}
  {e : CompileError}

theorem standsAt_of_mem_ruleLines (h : line ∈ ruleLines text) :
    ∃ after, StandsAt text.toList line.position (line.value ++ after) := by
  obtain ⟨whole, hwhole, rfl⟩ := List.mem_map.mp (List.mem_of_mem_filter h)
  exact standsAt_trimmedLine hwhole

theorem readPlaced_eq_ok_iff :
    readPlaced settings line = .ok rule ↔
      Rule.read (String.ofList line.value) .once settings = .ok rule := by
  rw [readPlaced]
  cases Rule.read (String.ofList line.value) .once settings <;> simp

theorem readPlaced_eq_error_iff :
    readPlaced settings line = .error e ↔
      ∃ own, Rule.read (String.ofList line.value) .once settings = .error own ∧
        e = own.moveTo (own.position + line.position) := by
  rw [readPlaced]
  cases Rule.read (String.ofList line.value) .once settings with
  | ok rule => simp
  | error own => simp [CompileError.shift_eq_moveTo, eq_comm]

/-! ### Rules of lines -/

theorem readLine_eq (settings : Settings) (line : Placed (List Char)) :
    readLine settings line =
      if holdsRule (trimmedLine line) then (readPlaced settings (trimmedLine line)).map some
      else .ok none := by
  unfold readLine
  by_cases h : ((trim line.value).isEmpty || (trim line.value).head? == some '#') = true
  · have hholds : ¬ holdsRule (trimmedLine line) = true := by
      simp only [holdsRule, trimmedLine, h]
      decide
    rw [if_neg hholds]
    exact if_pos h
  · have hholds : holdsRule (trimmedLine line) = true := by
      simp only [holdsRule, trimmedLine, Bool.not_eq_true] at h ⊢
      rw [h]
      rfl
    rw [if_pos hholds]
    refine (if_neg h).trans ?_
    unfold readPlaced
    simp only [trimmedLine]
    cases Rule.read (String.ofList (trim line.value)) .once settings <;> rfl

/-- Lines without a rule are passed over. -/
theorem mapM_readLine (settings : Settings) (lines : List (Placed (List Char))) :
    (lines.mapM (readLine settings)).map (·.filterMap id) =
      ((lines.map trimmedLine).filter holdsRule).mapM (readPlaced settings) := by
  induction lines with
  | nil => rfl
  | cons line lines ih =>
      rw [List.map_cons, List.filter_cons, List.mapM_cons, readLine_eq]
      cases holdsRule (trimmedLine line) with
      | false =>
          simp only [Bool.false_eq_true, if_false]
          rw [← ih]
          cases lines.mapM (readLine settings) <;> rfl
      | true =>
          simp only [if_true, List.mapM_cons]
          rw [← ih]
          cases readPlaced settings (trimmedLine line) with
          | error e => rfl
          | ok rule => cases lines.mapM (readLine settings) <;> rfl

theorem readAll_eq (text : String) (settings : Settings) :
    Rule.readAll text settings = (ruleLines text).mapM (readPlaced settings) := by
  rw [ruleLines, ← mapM_readLine, Rule.readAll]
  cases (placedLines text.toList).mapM (readLine settings) <;> rfl

/-- A rule is in the mode that it is read in. -/
theorem mode_of_read {mode : Mode} (h : Rule.read text mode settings = .ok rule) :
    rule.mode = mode := by
  rw [Rule.read] at h
  cases hpattern : CompiledPattern.read text settings with
  | error e => simp [hpattern, bind, Except.bind] at h
  | ok pattern =>
      cases htemplate : pattern.template with
      | none =>
          simp [hpattern, htemplate, bind, Except.bind, throw, throwThe, MonadExceptOf.throw] at h
      | some template =>
          simp only [hpattern, htemplate, bind, Except.bind, pure, Except.pure,
            Except.ok.injEq] at h
          rw [← h]

/-- **A rule text is its lines.**

A text is read exactly if each of its lines that holds a rule is, and then the rules are those of
the lines in order, to be applied once each.  Otherwise the error is that of the first line that is
refused: the same fault, and its position counted from where the line stands in the text. -/
theorem readAll_iff_lines (text : String) (settings : Settings) :
    (∀ line ∈ ruleLines text,
      ∃ after, StandsAt text.toList line.position (line.value ++ after)) ∧
    ((∃ rules, Rule.readAll text settings = .ok rules) ↔
      ∀ line ∈ ruleLines text, ∃ rule,
        Rule.read (String.ofList line.value) .once settings = .ok rule) ∧
    (∀ rules, Rule.readAll text settings = .ok rules ↔
      List.Forall₂ (fun line rule =>
        Rule.read (String.ofList line.value) .once settings = .ok rule ∧ rule.mode = .once)
        (ruleLines text) rules) ∧
    (∀ e, Rule.readAll text settings = .error e ↔
      ∃ before line after own, ruleLines text = before ++ line :: after ∧
        (∀ earlier ∈ before, ∃ rule,
          Rule.read (String.ofList earlier.value) .once settings = .ok rule) ∧
        Rule.read (String.ofList line.value) .once settings = .error own ∧
        e = own.moveTo (own.position + line.position)) := by
  simp only [readAll_eq, mapM_eq_ok_iff, mapM_eq_error_iff, readPlaced_eq_ok_iff,
    readPlaced_eq_error_iff]
  refine ⟨fun line hline => standsAt_of_mem_ruleLines hline, exists_forall₂_iff, ?_, ?_⟩
  · intro rules
    constructor
    · intro h
      exact h.imp fun line rule hread => ⟨hread, mode_of_read hread⟩
    · intro h
      exact h.imp fun line rule hread => hread.1
  · intro e
    constructor
    · rintro ⟨before, line, after, hsplit, hbefore, own, hown, he⟩
      exact ⟨before, line, after, own, hsplit, hbefore, hown, he⟩
    · rintro ⟨before, line, after, own, hsplit, hbefore, hown, he⟩
      exact ⟨before, line, after, hsplit, hbefore, own, hown, he⟩

end Rule

end TreeRules
