/-
What a pattern looks at.

From the nodes it has consumed a pattern goes on along axes and up to parents, and it may ask where
the search started.  A scope says which of these are allowed.  A pattern keeps to a scope if all that
stands in it does, whether or not a match comes there.

Nothing that the grammar derives asks where the search started, so only the slash in front of a
pattern does.
-/
import TreeRules.Proofs.Pattern.Accepts

namespace TreeRules

open TreeRules.Text

/-- What a pattern is allowed to look at. -/
structure Scope where
  /-- The axes that it may follow. -/
  follows : Axis → Bool
  /-- It may step to a parent. -/
  climbs : Bool
  /-- It may ask whether a match starts where the search did. -/
  anchored : Bool

namespace Scope

/-- Whatever a pattern may look at. -/
def all : Scope := { follows := fun _ => true, climbs := true, anchored := true }

/-- Anything but where the search started. -/
def anywhere : Scope := { follows := fun _ => true, climbs := true, anchored := false }

/-- Only what lies at and beneath the start of a match. -/
def downward : Scope where
  follows
    | .child | .descendant => true
    | .nextSibling | .anySibling => false
  climbs := false
  anchored := true

end Scope

namespace Pattern

variable {scope : Scope}

mutual

/-- The pattern looks at nothing outside the scope. -/
def keepsTo (scope : Scope) : Pattern → Bool
  | test _ | anchor .leaf => true
  | anchor .root => scope.anchored
  | parent => scope.climbs
  | sequence steps => stepsKeepTo scope steps
  | alternation branches => branchesKeepTo scope branches
  | repetition body _ _ _ | capture _ body => keepsTo scope body

/-- None of the steps looks outside the scope, nor is one reached along an axis outside of it. -/
def stepsKeepTo (scope : Scope) : List (Option Axis × Pattern) → Bool
  | [] => true
  | (own, step) :: steps =>
    own.all scope.follows && keepsTo scope step && stepsKeepTo scope steps

/-- None of the branches looks outside the scope. -/
def branchesKeepTo (scope : Scope) : List Pattern → Bool
  | [] => true
  | branch :: branches => keepsTo scope branch && branchesKeepTo scope branches

end

mutual

/-- Every pattern keeps to the scope that allows everything. -/
theorem keepsTo_all : ∀ p : Pattern, p.keepsTo .all = true
  | .test _ | .anchor .leaf | .anchor .root | .parent => keepsTo.eq_def _ _
  | .sequence steps => by rw [keepsTo, stepsKeepTo_all steps]
  | .alternation branches => by rw [keepsTo, branchesKeepTo_all branches]
  | .repetition body _ _ _ | .capture _ body => by rw [keepsTo, keepsTo_all body]

theorem stepsKeepTo_all : ∀ steps : List (Option Axis × Pattern), stepsKeepTo .all steps = true
  | [] => by rw [stepsKeepTo]
  | (own, step) :: steps => by
      have hown : own.all Scope.all.follows = true := by cases own <;> rfl
      rw [stepsKeepTo, hown, keepsTo_all step, stepsKeepTo_all steps]
      rfl

theorem branchesKeepTo_all : ∀ branches : List Pattern, branchesKeepTo .all branches = true
  | [] => by rw [branchesKeepTo]
  | branch :: branches => by
      rw [branchesKeepTo, keepsTo_all branch, branchesKeepTo_all branches]
      rfl

end

/-! ### Putting patterns together -/

theorem stepsKeepTo_append (scope : Scope) (steps steps' : List (Option Axis × Pattern)) :
    stepsKeepTo scope (steps ++ steps') =
      (stepsKeepTo scope steps && stepsKeepTo scope steps') := by
  induction steps with
  | nil => rw [List.nil_append, stepsKeepTo, Bool.true_and]
  | cons step steps ih =>
      rw [List.cons_append, stepsKeepTo, ih, stepsKeepTo, Bool.and_assoc (_ && _)]

theorem keepsTo_ofSteps {steps : List (Option Axis × Pattern)}
    (h : stepsKeepTo scope steps = true) : (ofSteps steps).keepsTo scope = true := by
  unfold ofSteps
  split
  · rw [stepsKeepTo, stepsKeepTo, Bool.and_true, Bool.and_eq_true] at h
    exact h.2
  · rwa [keepsTo]

theorem keepsTo_ofBranches {branches : List Pattern} (h : branchesKeepTo scope branches = true) :
    (ofBranches branches).keepsTo scope = true := by
  unfold ofBranches
  split
  · rw [branchesKeepTo, branchesKeepTo, Bool.and_true] at h
    exact h
  · rwa [keepsTo]

end Pattern

/-! ### What the grammar derives -/

namespace Grammar

open Pattern

theorem stepsKeepTo_marks (marks : List (Placed Mark)) :
    stepsKeepTo .anywhere (marks.map markStep) = true := by
  induction marks with
  | nil => rw [List.map_nil, stepsKeepTo]
  | cons mark marks ih =>
      have hmark : mark.value.pattern.keepsTo .anywhere = true := by
        cases mark.value <;> exact keepsTo.eq_def _ _
      rw [List.map_cons, markStep, stepsKeepTo, hmark, ih]
      rfl

theorem keepsTo_timesPattern {scope : Scope} {body : Pattern} (times : Option Times)
    (h : body.keepsTo scope = true) : (timesPattern body times).keepsTo scope = true := by
  cases times with
  | none => exact h
  | some times => rwa [timesPattern, keepsTo]

mutual

/-- **Nothing that the grammar derives asks where the search started.** -/
theorem keepsTo_branches : ∀ branches : Branches, branches.pattern.keepsTo .anywhere = true
  | .mk first others => by
      rw [Branches.pattern]
      refine keepsTo_ofBranches ?_
      rw [branchesKeepTo, keepsTo_sequence first, branchesKeepTo_others others]
      rfl

theorem branchesKeepTo_others : ∀ others : MoreBranches,
    branchesKeepTo .anywhere others.patterns = true
  | .nil => by rw [MoreBranches.patterns, branchesKeepTo]
  | .cons _ branch others => by
      rw [MoreBranches.patterns, branchesKeepTo, keepsTo_sequence branch,
        branchesKeepTo_others others]
      rfl

theorem keepsTo_sequence : ∀ sequence : Sequence, sequence.pattern.keepsTo .anywhere = true
  | .mk first marks steps => by
      rw [Sequence.pattern]
      refine keepsTo_ofSteps ?_
      rw [stepsKeepTo_append, stepsKeepTo, keepsTo_element first, stepsKeepTo_marks marks,
        stepsKeepTo_steps steps]
      rfl

theorem stepsKeepTo_steps : ∀ steps : MoreSteps, stepsKeepTo .anywhere steps.steps = true
  | .nil => by rw [MoreSteps.steps, stepsKeepTo]
  | .cons axis step marks steps => by
      rw [MoreSteps.steps, stepsKeepTo_append, stepsKeepTo, keepsTo_element step,
        stepsKeepTo_marks marks, stepsKeepTo_steps steps]
      rfl

theorem keepsTo_element : ∀ element : Element, element.pattern.keepsTo .anywhere = true
  | .capture _ _ body => by rw [Element.pattern, keepsTo, keepsTo_element body]
  | .plain body times => by
      rw [Element.pattern]
      exact keepsTo_timesPattern times (keepsTo_primary body)

theorem keepsTo_primary : ∀ primary : Primary, primary.pattern.keepsTo .anywhere = true
  | .word _ | .quoted _ | .any _ | .predicate _ | .reference _ => by rw [Primary.pattern, keepsTo]
  | .group _ inner _ => by rw [Primary.pattern, keepsTo_branches inner]

end

end Grammar

/-! ### Patterns that have been read -/

namespace CompiledPattern

open Grammar

variable {text : String} {settings : Settings} {p : CompiledPattern}

/-- The first sign of the text is a single slash. -/
def LeadingSlash (text : String) : Prop :=
  ∃ position rest, Token.readAll text = .ok (⟨.slash, position⟩ :: rest)

/-- Without a slash in front a pattern does not ask where the search started. -/
theorem keepsTo_anywhere_of_read (h : read text settings = .ok p) (hlead : ¬ LeadingSlash text) :
    p.pattern.keepsTo .anywhere = true := by
  obtain ⟨⟨lead, branches, arrow⟩, htokens, -, rfl⟩ := exists_derivation_of_read h
  show (leadPattern lead branches.pattern).keepsTo .anywhere = true
  unfold leadPattern
  split
  · -- the tokens would start with the slash
    exact absurd ⟨_, _, htokens⟩ hlead
  · exact keepsTo_branches branches

/-- With a slash in front its program can only start where the search starts. -/
theorem isRooted_of_read (h : read text settings = .ok p) (hlead : LeadingSlash text) :
    p.program.isRooted = true := by
  obtain ⟨⟨lead, branches, arrow⟩, htokens, -, rfl⟩ := exists_derivation_of_read h
  obtain ⟨position, rest, hslash⟩ := hlead
  have heq : ⟨.slash, position⟩ :: rest =
      leadTokens lead ++ (tokensOf branches.pieces ++ arrowTokens arrow) :=
    Except.ok.inj (hslash.symm.trans htokens)
  cases lead with
  | none =>
      have hstarts : NextIs (·.startsElement = true) (⟨.slash, position⟩ :: rest) := by
        rw [heq]
        exact nextIs_element_branches branches
      exact absurd (nextIs_cons.mp hstarts) Bool.false_ne_true
  | some lead =>
      obtain ⟨lead, position'⟩ := lead
      cases lead with
      | anywhere => cases heq
      | atRoot =>
          show Program.isRooted (Pattern.compile (.sequence _)) = true
          simp [Program.isRooted, Program.at?, Pattern.compile, Pattern.code, Pattern.codeOfSteps]

end CompiledPattern

end TreeRules
