/-
What stands in a pattern.

`parts` lists a pattern with all the patterns within it.  What is asked of a pattern all the way
down is asked of its parts: that a slash in front is the only anchor at the root, and that the code
of whatever stands in it is short if that of its repetitions is.

A path goes through a pattern from one end to the other, by one branch of an alternation and by as
many rounds of a repetition as its bounds allow, and collects the tests of the nodes that are
consumed on the way.  `canBeEmpty` is right to say that a pattern cannot be empty: no path through
it is without a test.
-/
import TreeRules.Pattern.Parser
import TreeRules.Proofs.Pattern.Scope

namespace TreeRules.Pattern

/-! ### Parts -/

mutual

/-- The pattern and all patterns within it, each before what lies within it. -/
def parts : Pattern → List Pattern
  | test asked => [test asked]
  | sequence steps => sequence steps :: partsOfSteps steps
  | alternation branches => alternation branches :: partsOfBranches branches
  | repetition body min max greedy => repetition body min max greedy :: parts body
  | capture name body => capture name body :: parts body
  | anchor place => [anchor place]
  | parent => [parent]

/-- The parts of some steps. -/
def partsOfSteps : List (Option Axis × Pattern) → List Pattern
  | [] => []
  | (_, step) :: steps => parts step ++ partsOfSteps steps

/-- The parts of some branches. -/
def partsOfBranches : List Pattern → List Pattern
  | [] => []
  | branch :: branches => parts branch ++ partsOfBranches branches

end

/-- The name that a part refers back to. -/
def reference? : Pattern → Option String
  | test (.reference name) => some name
  | _ => none

/-- The names that a pattern refers back to, from left to right. -/
def references (p : Pattern) : List String := p.parts.filterMap reference?

theorem mem_parts_self (p : Pattern) : p ∈ p.parts := by
  cases p <;> simp [parts]

theorem length_parts_pos (p : Pattern) : 0 < p.parts.length :=
  List.length_pos_of_mem p.mem_parts_self

mutual

/-- **The parts of a part are parts.** -/
theorem parts_sublist : ∀ (p : Pattern) {q : Pattern}, q ∈ p.parts → q.parts.Sublist p.parts
  | test asked, q, h => by
      rw [parts, List.mem_singleton] at h
      rw [h]
  | sequence steps, q, h => by
      rw [parts, List.mem_cons] at h
      rcases h with rfl | h
      · exact List.Sublist.refl _
      · rw [parts]
        exact (partsOfSteps_sublist steps h).cons _
  | alternation branches, q, h => by
      rw [parts, List.mem_cons] at h
      rcases h with rfl | h
      · exact List.Sublist.refl _
      · rw [parts]
        exact (partsOfBranches_sublist branches h).cons _
  | repetition body min max greedy, q, h => by
      rw [parts, List.mem_cons] at h
      rcases h with rfl | h
      · exact List.Sublist.refl _
      · rw [parts]
        exact (parts_sublist body h).cons _
  | capture name body, q, h => by
      rw [parts, List.mem_cons] at h
      rcases h with rfl | h
      · exact List.Sublist.refl _
      · rw [parts]
        exact (parts_sublist body h).cons _
  | anchor place, q, h => by
      rw [parts, List.mem_singleton] at h
      rw [h]
  | parent, q, h => by
      rw [parts, List.mem_singleton] at h
      rw [h]

theorem partsOfSteps_sublist : ∀ (steps : List (Option Axis × Pattern)) {q : Pattern},
    q ∈ partsOfSteps steps → q.parts.Sublist (partsOfSteps steps)
  | [], q, h => by
      rw [partsOfSteps] at h
      cases h
  | (_, step) :: steps, q, h => by
      rw [partsOfSteps, List.mem_append] at h
      rw [partsOfSteps]
      rcases h with h | h
      · exact (parts_sublist step h).trans (List.sublist_append_left _ _)
      · exact (partsOfSteps_sublist steps h).trans (List.sublist_append_right _ _)

theorem partsOfBranches_sublist : ∀ (branches : List Pattern) {q : Pattern},
    q ∈ partsOfBranches branches → q.parts.Sublist (partsOfBranches branches)
  | [], q, h => by
      rw [partsOfBranches] at h
      cases h
  | branch :: branches, q, h => by
      rw [partsOfBranches, List.mem_append] at h
      rw [partsOfBranches]
      rcases h with h | h
      · exact (parts_sublist branch h).trans (List.sublist_append_left _ _)
      · exact (partsOfBranches_sublist branches h).trans (List.sublist_append_right _ _)

end

/-! ### The anchor at the root -/

mutual

/-- What does not ask where the search started has no anchor at the root. -/
theorem root_not_mem_parts : ∀ p : Pattern, p.keepsTo .anywhere = true → anchor .root ∉ p.parts
  | test asked, _ => by simp [parts]
  | sequence steps, h => by
      rw [keepsTo] at h
      simpa [parts] using root_not_mem_partsOfSteps steps h
  | alternation branches, h => by
      rw [keepsTo] at h
      simpa [parts] using root_not_mem_partsOfBranches branches h
  | repetition body min max greedy, h => by
      rw [keepsTo] at h
      simpa [parts] using root_not_mem_parts body h
  | capture name body, h => by
      rw [keepsTo] at h
      simpa [parts] using root_not_mem_parts body h
  | anchor .leaf, _ => by simp [parts]
  | anchor .root, h => by
      rw [keepsTo] at h
      cases h
  | parent, _ => by simp [parts]

theorem root_not_mem_partsOfSteps : ∀ steps : List (Option Axis × Pattern),
    stepsKeepTo .anywhere steps = true → anchor .root ∉ partsOfSteps steps
  | [], _ => by simp [partsOfSteps]
  | (_, step) :: steps, h => by
      rw [stepsKeepTo, Bool.and_eq_true, Bool.and_eq_true] at h
      rw [partsOfSteps, List.mem_append, not_or]
      exact ⟨root_not_mem_parts step h.1.2, root_not_mem_partsOfSteps steps h.2⟩

theorem root_not_mem_partsOfBranches : ∀ branches : List Pattern,
    branchesKeepTo .anywhere branches = true → anchor .root ∉ partsOfBranches branches
  | [], _ => by simp [partsOfBranches]
  | branch :: branches, h => by
      rw [branchesKeepTo, Bool.and_eq_true] at h
      rw [partsOfBranches, List.mem_append, not_or]
      exact ⟨root_not_mem_parts branch h.1, root_not_mem_partsOfBranches branches h.2⟩

end

/-! ### Code -/

/-- Every repetition among the parts is compiled to no more instructions than one may be. -/
def Short (parts : List Pattern) : Prop :=
  ∀ body min max greedy, repetition body min max greedy ∈ parts →
    (repetition body min max greedy).codeLength ≤ maxCodeLength

theorem Short.of_subset {parts parts' : List Pattern} (h : Short parts')
    (hsubset : parts ⊆ parts') : Short parts :=
  fun body min max greedy hmem => h body min max greedy (hsubset hmem)

theorem Short.of_cons {p : Pattern} {parts : List Pattern} (h : Short (p :: parts)) : Short parts :=
  h.of_subset (List.subset_cons_self p parts)

theorem Short.of_append {parts parts' : List Pattern} (h : Short (parts ++ parts')) :
    Short parts ∧ Short parts' :=
  ⟨h.of_subset (List.subset_append_left parts parts'),
    h.of_subset (List.subset_append_right parts parts')⟩

mutual

/-- **The code of a pattern is bounded by its parts** if its repetitions are short, with room for
the two instructions that an alternation or a loop adds. -/
theorem codeLength_le_parts : ∀ p : Pattern, Short p.parts →
    p.codeLength + 2 ≤ maxCodeLength * p.parts.length
  | test asked, _ => by simp [codeLength, parts, maxCodeLength]
  | sequence steps, h => by
      rw [parts] at h ⊢
      have hsteps := stepsLength_le_parts steps h.of_cons
      rw [codeLength, List.length_cons, Nat.mul_add]
      have hmax : 2 ≤ maxCodeLength := by decide
      omega
  | alternation branches, h => by
      rw [parts] at h ⊢
      have hbranches := branchesLength_le_parts branches h.of_cons
      rw [codeLength, List.length_cons, Nat.mul_add]
      have hmax : 2 ≤ maxCodeLength := by decide
      omega
  | repetition body min max greedy, h => by
      have hshort := h body min max greedy (mem_parts_self _)
      have hbody := Nat.mul_le_mul_left maxCodeLength body.length_parts_pos
      rw [parts, List.length_cons, Nat.mul_add]
      have hmax : 2 ≤ maxCodeLength := by decide
      omega
  | capture name body, h => by
      rw [parts] at h ⊢
      have hbody := codeLength_le_parts body h.of_cons
      rw [codeLength, List.length_cons, Nat.mul_add]
      omega
  | anchor place, _ => by simp [codeLength, parts, maxCodeLength]
  | parent, _ => by simp [codeLength, parts, maxCodeLength]

theorem stepsLength_le_parts : ∀ steps : List (Option Axis × Pattern), Short (partsOfSteps steps) →
    stepsLength steps ≤ maxCodeLength * (partsOfSteps steps).length
  | [], _ => by simp [stepsLength, partsOfSteps]
  | (_, step) :: steps, h => by
      rw [partsOfSteps] at h ⊢
      have hstep := codeLength_le_parts step h.of_append.1
      have hsteps := stepsLength_le_parts steps h.of_append.2
      rw [stepsLength, List.length_append, Nat.mul_add]
      omega

theorem branchesLength_le_parts : ∀ branches : List Pattern, Short (partsOfBranches branches) →
    branchesLength branches + 2 * branches.length ≤
      maxCodeLength * (partsOfBranches branches).length
  | [], _ => by simp [branchesLength, partsOfBranches]
  | branch :: branches, h => by
      rw [partsOfBranches] at h ⊢
      have hbranch := codeLength_le_parts branch h.of_append.1
      have hbranches := branchesLength_le_parts branches h.of_append.2
      rw [branchesLength, List.length_append, Nat.mul_add, List.length_cons]
      omega

end

/-! ### Paths -/

mutual

/-- A path through a pattern, with the tests of the nodes that are consumed on the way. -/
inductive Path : Pattern → List NodeTest → Prop where
  | test (asked : NodeTest) : Path (.test asked) [asked]
  | sequence {steps : List (Option Axis × Pattern)} {tests : List NodeTest}
      (through : StepsPath steps tests) : Path (.sequence steps) tests
  | alternation {branches : List Pattern} {branch : Pattern} {tests : List NodeTest}
      (mem : branch ∈ branches) (through : Path branch tests) : Path (.alternation branches) tests
  | repetition {body : Pattern} {min count : Nat} {max : Option Nat} {greedy : Bool}
      {tests : List NodeTest} (enough : min ≤ count)
      (bounded : ∀ bound, max = some bound → count ≤ bound)
      (rounds : RoundsPath body count tests) : Path (.repetition body min max greedy) tests
  | capture {name : String} {body : Pattern} {tests : List NodeTest} (through : Path body tests) :
      Path (.capture name body) tests
  | anchor (place : Anchor) : Path (.anchor place) []
  | parent : Path .parent []

/-- A path through steps, one after another. -/
inductive StepsPath : List (Option Axis × Pattern) → List NodeTest → Prop where
  | nil : StepsPath [] []
  | cons {own : Option Axis} {step : Pattern} {steps : List (Option Axis × Pattern)}
      {tests tests' : List NodeTest} (first : Path step tests) (others : StepsPath steps tests') :
      StepsPath ((own, step) :: steps) (tests ++ tests')

/-- A path through a body as many times. -/
inductive RoundsPath : Pattern → Nat → List NodeTest → Prop where
  | zero (body : Pattern) : RoundsPath body 0 []
  | succ {body : Pattern} {count : Nat} {tests tests' : List NodeTest} (first : Path body tests)
      (others : RoundsPath body count tests') : RoundsPath body (count + 1) (tests ++ tests')

end

mutual

/-- **Every path through a pattern that cannot be empty consumes a node.** -/
theorem Path.ne_nil : ∀ (p : Pattern) {tests : List NodeTest}, p.canBeEmpty = false →
    Path p tests → tests ≠ []
  | .test asked, tests, _, h => by
      cases h
      simp
  | .sequence steps, tests, hp, h => by
      rw [canBeEmpty] at hp
      cases h with
      | sequence through => exact StepsPath.ne_nil steps hp through
  | .alternation branches, tests, hp, h => by
      rw [canBeEmpty] at hp
      cases h with
      | alternation mem through => exact Path.ne_nil_of_mem branches hp mem through
  | .repetition body min max greedy, tests, hp, h => by
      rw [canBeEmpty, Bool.or_eq_false_iff, beq_eq_false_iff_ne] at hp
      cases h with
      | repetition enough _ rounds =>
          cases rounds with
          | zero => omega
          | succ first _ =>
              have hfirst := Path.ne_nil body hp.2 first
              simp [hfirst]
  | .capture name body, tests, hp, h => by
      rw [canBeEmpty] at hp
      cases h with
      | capture through => exact Path.ne_nil body hp through
  | .anchor _, _, hp, _ => by simp [canBeEmpty] at hp
  | .parent, _, hp, _ => by simp [canBeEmpty] at hp

theorem StepsPath.ne_nil : ∀ (steps : List (Option Axis × Pattern)) {tests : List NodeTest},
    allCanBeEmpty steps = false → StepsPath steps tests → tests ≠ []
  | [], _, hp, _ => by simp [allCanBeEmpty] at hp
  | (_, step) :: steps, tests, hp, h => by
      rw [allCanBeEmpty, Bool.and_eq_false_iff] at hp
      cases h with
      | cons first others =>
          rcases hp with hp | hp
          · have hfirst := Path.ne_nil step hp first
            simp [hfirst]
          · have hothers := StepsPath.ne_nil steps hp others
            simp [hothers]

theorem Path.ne_nil_of_mem : ∀ (branches : List Pattern) {branch : Pattern} {tests : List NodeTest},
    anyCanBeEmpty branches = false → branch ∈ branches → Path branch tests → tests ≠ []
  | [], _, _, _, hmem, _ => by cases hmem
  | first :: branches, branch, tests, hp, hmem, h => by
      rw [anyCanBeEmpty, Bool.or_eq_false_iff] at hp
      rcases List.mem_cons.mp hmem with heq | hmem
      · rw [heq] at h
        exact Path.ne_nil first hp.1 h
      · exact Path.ne_nil_of_mem branches hp.2 hmem h

end

end TreeRules.Pattern
