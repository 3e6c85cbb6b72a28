/-
Patterns without loops.

A repetition without bound is compiled to a loop, and one with a bound is written out.
`Pattern.unrolled` gives every repetition a bound: as many times as are asked for, and `extra` times
more.  As a pattern that text can be read as, it is as good as the one with the loops, and declares
the same captures; if `extra` were zero it would not, since a body that is never repeated declares
nothing.
-/
import TreeRules.Proofs.Pattern.Proper

namespace TreeRules.Pattern

mutual

/-- The pattern with each repetition without bound written out, `extra` times beyond the times that
are asked for. -/
def unrolled (extra : Nat) : Pattern → Pattern
  | test asked => test asked
  | sequence steps => sequence (unrolledSteps extra steps)
  | alternation branches => alternation (unrolledBranches extra branches)
  | repetition body min max greedy =>
    repetition (unrolled extra body) min (some (max.getD (min + extra))) greedy
  | capture name body => capture name (unrolled extra body)
  | anchor place => anchor place
  | parent => parent

/-- Each step written out. -/
def unrolledSteps (extra : Nat) : List (Option Axis × Pattern) → List (Option Axis × Pattern)
  | [] => []
  | (own, step) :: steps => (own, unrolled extra step) :: unrolledSteps extra steps

/-- Each branch written out. -/
def unrolledBranches (extra : Nat) : List Pattern → List Pattern
  | [] => []
  | branch :: branches => unrolled extra branch :: unrolledBranches extra branches

end

variable {extra : Nat}

mutual

/-- A pattern without loops is proper if it has no alternation of no branches. -/
theorem proper_unrolled : ∀ {p : Pattern}, p.Proper → (p.unrolled extra).Proper
  | test _, h | anchor _, h | parent, h => h
  | sequence steps, h => by
      rw [Proper] at h
      rw [unrolled, Proper]
      exact properSteps_unrolled h
  | alternation branches, h => by
      rw [Proper] at h
      rw [unrolled, Proper]
      refine ⟨fun hnil => h.1 ?_, properBranches_unrolled h.2⟩
      cases branches with
      | nil => rfl
      | cons branch branches => cases hnil
  | repetition body min max greedy, h => by
      rw [Proper] at h
      rw [unrolled, Proper]
      exact ⟨fun hmax => absurd hmax (Option.some_ne_none _), proper_unrolled h.2⟩
  | capture name body, h => by
      rw [Proper] at h
      rw [unrolled, Proper]
      exact proper_unrolled h

theorem properSteps_unrolled :
    ∀ {steps : List (Option Axis × Pattern)}, ProperSteps steps →
      ProperSteps (unrolledSteps extra steps)
  | [], h => h
  | (_, step) :: steps, h => by
      rw [ProperSteps] at h
      rw [unrolledSteps, ProperSteps]
      exact ⟨proper_unrolled h.1, properSteps_unrolled h.2⟩

theorem properBranches_unrolled :
    ∀ {branches : List Pattern}, ProperBranches branches →
      ProperBranches (unrolledBranches extra branches)
  | [], h => h
  | branch :: branches, h => by
      rw [ProperBranches] at h
      rw [unrolledBranches, ProperBranches]
      exact ⟨proper_unrolled h.1, properBranches_unrolled h.2⟩

end

mutual

theorem consumesExactlyOne_unrolled :
    ∀ p : Pattern, (p.unrolled extra).consumesExactlyOne = p.consumesExactlyOne
  | test _ | anchor _ | parent => rfl
  | sequence steps | repetition body min max greedy => by
      rw [unrolled, consumesExactlyOne, consumesExactlyOne]
  | alternation branches => by
      rw [unrolled, consumesExactlyOne, consumesExactlyOne, allConsumeExactlyOne_unrolled]
  | capture name body => by
      rw [unrolled, consumesExactlyOne, consumesExactlyOne, consumesExactlyOne_unrolled]

theorem allConsumeExactlyOne_unrolled :
    ∀ branches : List Pattern,
      allConsumeExactlyOne (unrolledBranches extra branches) = allConsumeExactlyOne branches
  | [] => rfl
  | branch :: branches => by
      rw [unrolledBranches, allConsumeExactlyOne, allConsumeExactlyOne,
        consumesExactlyOne_unrolled branch, allConsumeExactlyOne_unrolled branches]

end

mutual

theorem declareCaptures_unrolled (hextra : 0 < extra) (repeated : Bool) :
    ∀ (p : Pattern) (slots : List CaptureSlot),
      (p.unrolled extra).declareCaptures repeated slots = p.declareCaptures repeated slots
  | test _, _ | anchor _, _ | parent, _ => rfl
  | sequence steps, slots => by
      rw [unrolled, declareCaptures, declareCaptures, declareInSteps_unrolled hextra]
  | alternation branches, slots => by
      rw [unrolled, declareCaptures, declareCaptures, declareInBranches_unrolled hextra]
  | repetition body min max greedy, slots => by
      have hnever : (min = 0 && some (max.getD (min + extra)) = some 0) =
          (min = 0 && max = some 0 : Bool) := by
        cases max with
        | none => simp; omega
        | some max => rfl
      rw [unrolled, declareCaptures, declareCaptures, hnever,
        declareCaptures_unrolled hextra true body]
  | capture name body, slots => by
      rw [unrolled, declareCaptures, declareCaptures, consumesExactlyOne_unrolled]
      exact declareCaptures_unrolled hextra repeated body _

theorem declareInSteps_unrolled (hextra : 0 < extra) (repeated : Bool) :
    ∀ (steps : List (Option Axis × Pattern)) (slots : List CaptureSlot),
      declareInSteps repeated slots (unrolledSteps extra steps) =
        declareInSteps repeated slots steps
  | [], _ => rfl
  | (_, step) :: steps, slots => by
      rw [unrolledSteps, declareInSteps, declareInSteps,
        declareCaptures_unrolled hextra repeated step, declareInSteps_unrolled hextra]

theorem declareInBranches_unrolled (hextra : 0 < extra) (repeated : Bool) :
    ∀ (branches : List Pattern) (slots : List CaptureSlot),
      declareInBranches repeated slots (unrolledBranches extra branches) =
        declareInBranches repeated slots branches
  | [], _ => rfl
  | branch :: branches, slots => by
      rw [unrolledBranches, declareInBranches, declareInBranches,
        declareCaptures_unrolled hextra repeated branch, declareInBranches_unrolled hextra]

end

/-- **Writing loops out declares nothing new and nothing else.** -/
theorem captureSlots_unrolled (hextra : 0 < extra) (p : Pattern) :
    (p.unrolled extra).captureSlots = p.captureSlots :=
  declareCaptures_unrolled hextra false p []

end TreeRules.Pattern
