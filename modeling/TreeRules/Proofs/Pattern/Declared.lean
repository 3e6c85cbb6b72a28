/-
The names that a pattern declares.

A pattern declares a name where the capture starts, and a reader counts the name from where the
captured element ends.  At the end of a pattern both come to the same names.  The induction is on
the derivation, with any names declared before it.

Each name is a word that stands among the tokens.
-/
import TreeRules.Proofs.Pattern.Pieces

namespace TreeRules

open TreeRules.Text

namespace Grammar

theorem captureNamesAfter_timesPattern (seen : List String) (body : Pattern)
    (times : Option Times) :
    (timesPattern body times).captureNamesAfter seen = body.captureNamesAfter seen := by
  cases times with
  | none => rfl
  | some times => rw [timesPattern, Pattern.captureNamesAfter]

theorem captureNamesAfter_ofSteps (seen : List String) (steps : List (Option Axis × Pattern)) :
    (Pattern.ofSteps steps).captureNamesAfter seen = Pattern.captureNamesOfSteps seen steps := by
  unfold Pattern.ofSteps
  split
  · rw [Pattern.captureNamesOfSteps, Pattern.captureNamesOfSteps]
  · rw [Pattern.captureNamesAfter]

theorem captureNamesAfter_ofBranches (seen : List String) (branches : List Pattern) :
    (Pattern.ofBranches branches).captureNamesAfter seen =
      Pattern.captureNamesOfBranches seen branches := by
  unfold Pattern.ofBranches
  split
  · rw [Pattern.captureNamesOfBranches, Pattern.captureNamesOfBranches]
  · rw [Pattern.captureNamesAfter]

theorem captureNamesOfSteps_append (seen : List String)
    (steps steps' : List (Option Axis × Pattern)) :
    Pattern.captureNamesOfSteps seen (steps ++ steps') =
      Pattern.captureNamesOfSteps (Pattern.captureNamesOfSteps seen steps) steps' := by
  induction steps generalizing seen with
  | nil => rw [List.nil_append, Pattern.captureNamesOfSteps]
  | cons step steps ih =>
      rw [List.cons_append, Pattern.captureNamesOfSteps, ih, Pattern.captureNamesOfSteps]

theorem captureNamesOfSteps_marks (seen : List String) (marks : List (Placed Mark)) :
    Pattern.captureNamesOfSteps seen (marks.map markStep) = seen := by
  induction marks with
  | nil => rw [List.map_nil, Pattern.captureNamesOfSteps]
  | cons mark marks ih =>
      have hmark : mark.value.pattern.captureNamesAfter seen = seen := by
        cases mark.value <;> exact Pattern.captureNamesAfter.eq_def _ _
      rw [List.map_cons, markStep, Pattern.captureNamesOfSteps, hmark, ih]

mutual

theorem mem_captureNamesAfter_branches : ∀ (branches : Branches) {seen : List String}
    {name : String}, name ∈ branches.pattern.captureNamesAfter seen ↔
      name ∈ seen ∨ name ∈ endedIn branches.pieces
  | .mk first others, seen, name => by
      rw [Branches.pattern, Branches.pieces, captureNamesAfter_ofBranches,
        Pattern.captureNamesOfBranches, mem_captureNamesOfBranches others,
        mem_captureNamesAfter_sequence first, endedIn_append, List.mem_append, or_assoc]

theorem mem_captureNamesOfBranches : ∀ (others : MoreBranches) {seen : List String}
    {name : String}, name ∈ Pattern.captureNamesOfBranches seen others.patterns ↔
      name ∈ seen ∨ name ∈ endedIn others.pieces
  | .nil, seen, name => by
      rw [MoreBranches.patterns, MoreBranches.pieces, Pattern.captureNamesOfBranches]
      simp
  | .cons bar branch others, seen, name => by
      rw [MoreBranches.patterns, MoreBranches.pieces, Pattern.captureNamesOfBranches,
        mem_captureNamesOfBranches others, mem_captureNamesAfter_sequence branch, List.cons_append,
        endedIn_token, endedIn_append, List.mem_append, or_assoc]

theorem mem_captureNamesAfter_sequence : ∀ (sequence : Sequence) {seen : List String}
    {name : String}, name ∈ sequence.pattern.captureNamesAfter seen ↔
      name ∈ seen ∨ name ∈ endedIn sequence.pieces
  | .mk first marks steps, seen, name => by
      rw [Sequence.pattern, Sequence.pieces, captureNamesAfter_ofSteps, captureNamesOfSteps_append,
        Pattern.captureNamesOfSteps, captureNamesOfSteps_marks, mem_captureNamesOfSteps steps,
        mem_captureNamesAfter first]
      simp [endedIn_map_token, or_assoc]

theorem mem_captureNamesOfSteps : ∀ (steps : MoreSteps) {seen : List String} {name : String},
    name ∈ Pattern.captureNamesOfSteps seen steps.steps ↔
      name ∈ seen ∨ name ∈ endedIn steps.pieces
  | .nil, seen, name => by
      rw [MoreSteps.steps, MoreSteps.pieces, Pattern.captureNamesOfSteps]
      simp
  | .cons axis step marks steps, seen, name => by
      rw [MoreSteps.steps, MoreSteps.pieces, captureNamesOfSteps_append,
        Pattern.captureNamesOfSteps, captureNamesOfSteps_marks, mem_captureNamesOfSteps steps,
        mem_captureNamesAfter step]
      simp [endedIn_map_token, or_assoc]

theorem mem_captureNamesAfter : ∀ (element : Element) {seen : List String} {name : String},
    name ∈ element.pattern.captureNamesAfter seen ↔ name ∈ seen ∨ name ∈ endedIn element.pieces
  | .capture name' colon body, seen, name => by
      rw [Element.pattern, Element.pieces, Pattern.captureNamesAfter, mem_captureNamesAfter body]
      simp only [List.cons_append, endedIn_token, endedIn_append, endedIn_ended, endedIn_nil,
        List.mem_append, List.mem_singleton]
      -- the name is declared before the element and counted as ended after it
      by_cases hseen : seen.contains name'.value = true
      · have hmem : name'.value ∈ seen := List.contains_iff_mem.mp hseen
        rw [if_pos hseen]
        grind
      · rw [if_neg hseen, List.mem_append, List.mem_singleton]
        grind
  | .plain body times, seen, name => by
      rw [Element.pattern, Element.pieces, captureNamesAfter_timesPattern, endedIn_append,
        endedIn_timesPieces, List.append_nil]
      exact mem_captureNamesAfter_primary body

theorem mem_captureNamesAfter_primary : ∀ (primary : Primary) {seen : List String} {name : String},
    name ∈ primary.pattern.captureNamesAfter seen ↔ name ∈ seen ∨ name ∈ endedIn primary.pieces
  | .word _, seen, name | .quoted _, seen, name | .any _, seen, name | .predicate _, seen, name
  | .reference _, seen, name => by
      rw [Primary.pattern, Primary.pieces, Pattern.captureNamesAfter]
      simp
  | .group opening inner closing, seen, name => by
      rw [Primary.pattern, Primary.pieces, mem_captureNamesAfter_branches inner]
      simp

end

/-- A pattern declares exactly the names of the captures whose elements end in its derivation. -/
theorem mem_captureNames (branches : Branches) {name : String} :
    name ∈ branches.pattern.captureNames ↔ name ∈ endedIn branches.pieces := by
  rw [Pattern.captureNames, mem_captureNamesAfter_branches branches]
  simp

/-! ### Names are words -/

/-- The name of each capture that ends among the pieces stands there as a word. -/
def Worded (pieces : List Piece) : Prop :=
  ∀ name ∈ endedIn pieces, ∃ position, ⟨.word name, position⟩ ∈ tokensOf pieces

theorem worded_of_endedIn_nil {pieces : List Piece} (h : endedIn pieces = []) : Worded pieces := by
  intro name hname
  rw [h] at hname
  exact absurd hname (by simp)

theorem Worded.append {pieces pieces' : List Piece} (h : Worded pieces) (h' : Worded pieces') :
    Worded (pieces ++ pieces') := by
  intro name hname
  rw [endedIn_append, List.mem_append] at hname
  rw [tokensOf_append]
  rcases hname with hname | hname
  · obtain ⟨position, hmem⟩ := h name hname
    exact ⟨position, List.mem_append_left _ hmem⟩
  · obtain ⟨position, hmem⟩ := h' name hname
    exact ⟨position, List.mem_append_right _ hmem⟩

theorem worded_tokens (tokens : List (Placed Token)) : Worded (tokens.map .token) :=
  worded_of_endedIn_nil (endedIn_map_token tokens)

theorem Worded.cons {pieces : List Piece} (h : Worded pieces) (t : Placed Token) :
    Worded (.token t :: pieces) :=
  (worded_tokens [t]).append h

mutual

theorem worded_element : ∀ element : Element, Worded element.pieces
  | .capture name colon body => by
      rw [Element.pieces]
      intro name' hname'
      simp only [List.cons_append, endedIn_token, endedIn_append, endedIn_ended, endedIn_nil,
        List.mem_append, List.mem_singleton] at hname'
      simp only [List.cons_append, tokensOf_token, tokensOf_append]
      rcases hname' with hname' | rfl
      · obtain ⟨position, hmem⟩ := worded_element body name' hname'
        exact ⟨position, by simp [hmem]⟩
      · exact ⟨name.position, List.mem_cons_self⟩
  | .plain body times => by
      rw [Element.pieces]
      exact (worded_primary body).append (worded_of_endedIn_nil (endedIn_timesPieces _ times))

theorem worded_primary : ∀ primary : Primary, Worded primary.pieces
  | .word _ | .quoted _ | .any _ | .predicate _ | .reference _ => by
      rw [Primary.pieces]
      exact worded_of_endedIn_nil rfl
  | .group opening inner closing => by
      rw [Primary.pieces]
      exact ((worded_branches inner).cons _).append (worded_of_endedIn_nil rfl)

theorem worded_branches : ∀ branches : Branches, Worded branches.pieces
  | .mk first others => by
      rw [Branches.pieces]
      exact (worded_sequence first).append (worded_moreBranches others)

theorem worded_moreBranches : ∀ others : MoreBranches, Worded others.pieces
  | .nil => worded_of_endedIn_nil rfl
  | .cons bar branch others => by
      rw [MoreBranches.pieces]
      exact ((worded_sequence branch).cons _).append (worded_moreBranches others)

theorem worded_sequence : ∀ sequence : Sequence, Worded sequence.pieces
  | .mk first marks steps => by
      rw [Sequence.pieces]
      exact ((worded_element first).append (worded_tokens _)).append (worded_moreSteps steps)

theorem worded_moreSteps : ∀ steps : MoreSteps, Worded steps.pieces
  | .nil => worded_of_endedIn_nil rfl
  | .cons axis step marks steps => by
      rw [MoreSteps.pieces]
      exact (((worded_tokens _).append (worded_element step)).append (worded_tokens _)).append
        (worded_moreSteps steps)

end

end Grammar

end TreeRules
