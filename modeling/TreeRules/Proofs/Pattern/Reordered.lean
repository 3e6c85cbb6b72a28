/-
Patterns that differ in what they prefer.

A repetition prefers more times or fewer, and an alternation its earlier branches.  `Reordered`
relates two patterns that differ in nothing but these: any repetition may prefer the other way, and
the branches of any alternation may stand in another order, at every depth.

Most of what is said of a pattern is said of each branch on its own.  So one that is reordered can
be empty just if the other can, is proper if the other is, and makes the same declarations, though
it may make them in another order.
-/
import TreeRules.Proofs.Pattern.Kinds
import TreeRules.Proofs.Pattern.Proper

namespace TreeRules.Pattern

mutual

/-- The second pattern is the first one with any repetitions preferring the other way and any
branches in another order. -/
inductive Reordered : Pattern → Pattern → Prop
  | test (asked : NodeTest) : Reordered (.test asked) (.test asked)
  | sequence {steps steps' : List (Option Axis × Pattern)} (h : ReorderedSteps steps steps') :
      Reordered (.sequence steps) (.sequence steps')
  | alternation {branches branches' permuted : List Pattern}
      (h : ReorderedBranches branches branches') (hperm : branches'.Perm permuted) :
      Reordered (.alternation branches) (.alternation permuted)
  | repetition {body body' : Pattern} (h : Reordered body body') (min : Nat) (max : Option Nat)
      (greedy greedy' : Bool) :
      Reordered (.repetition body min max greedy) (.repetition body' min max greedy')
  | capture (name : String) {body body' : Pattern} (h : Reordered body body') :
      Reordered (.capture name body) (.capture name body')
  | anchor (place : Anchor) : Reordered (.anchor place) (.anchor place)
  | parent : Reordered .parent .parent

/-- Each step is reordered where it stands. -/
inductive ReorderedSteps :
    List (Option Axis × Pattern) → List (Option Axis × Pattern) → Prop
  | nil : ReorderedSteps [] []
  | cons (own : Option Axis) {step step' : Pattern} {steps steps' : List (Option Axis × Pattern)}
      (h : Reordered step step') (hs : ReorderedSteps steps steps') :
      ReorderedSteps ((own, step) :: steps) ((own, step') :: steps')

/-- Each branch is reordered where it stands. -/
inductive ReorderedBranches : List Pattern → List Pattern → Prop
  | nil : ReorderedBranches [] []
  | cons {branch branch' : Pattern} {branches branches' : List Pattern}
      (h : Reordered branch branch') (hs : ReorderedBranches branches branches') :
      ReorderedBranches (branch :: branches) (branch' :: branches')

end

mutual

/-- Nothing need be changed. -/
theorem Reordered.refl : ∀ p : Pattern, p.Reordered p
  | .test asked => .test asked
  | .sequence steps => .sequence (ReorderedSteps.refl steps)
  | .alternation branches => .alternation (ReorderedBranches.refl branches) (.refl branches)
  | .repetition body min max greedy => .repetition (Reordered.refl body) min max greedy greedy
  | .capture name body => .capture name (Reordered.refl body)
  | .anchor place => .anchor place
  | .parent => .parent

theorem ReorderedSteps.refl : ∀ steps : List (Option Axis × Pattern), ReorderedSteps steps steps
  | [] => .nil
  | (own, step) :: steps => .cons own (Reordered.refl step) (ReorderedSteps.refl steps)

theorem ReorderedBranches.refl : ∀ branches : List Pattern, ReorderedBranches branches branches
  | [] => .nil
  | branch :: branches => .cons (Reordered.refl branch) (ReorderedBranches.refl branches)

end

/-! ### Branch by branch -/

theorem anyCanBeEmpty_eq (branches : List Pattern) :
    anyCanBeEmpty branches = branches.any canBeEmpty := by
  induction branches with
  | nil => rfl
  | cons branch branches ih => rw [anyCanBeEmpty, List.any_cons, ih]

theorem allConsumeExactlyOne_eq (branches : List Pattern) :
    allConsumeExactlyOne branches = branches.all consumesExactlyOne := by
  induction branches with
  | nil => rfl
  | cons branch branches ih => rw [allConsumeExactlyOne, List.all_cons, ih]

theorem properBranches_iff {branches : List Pattern} :
    ProperBranches branches ↔ ∀ branch ∈ branches, branch.Proper := by
  induction branches with
  | nil => simp [ProperBranches]
  | cons branch branches ih => rw [ProperBranches, List.forall_mem_cons, ih]

theorem declarationsInBranches_eq (repeated : Bool) (branches : List Pattern) :
    declarationsInBranches repeated branches = branches.flatMap (declarations repeated) := by
  induction branches with
  | nil => rfl
  | cons branch branches ih => rw [declarationsInBranches, List.flatMap_cons, ih]

/-! ### What the order leaves alone -/

mutual

theorem Reordered.canBeEmpty_eq :
    ∀ {p p' : Pattern}, p.Reordered p' → p'.canBeEmpty = p.canBeEmpty
  | _, _, .test _ | _, _, .anchor _ | _, _, .parent => rfl
  | _, _, .sequence h => by rw [canBeEmpty, canBeEmpty, h.allCanBeEmpty_eq]
  | _, _, .alternation h hperm => by
      rw [canBeEmpty, canBeEmpty, ← h.anyCanBeEmpty_eq, Pattern.anyCanBeEmpty_eq,
        Pattern.anyCanBeEmpty_eq, hperm.any_eq]
  | _, _, .repetition h _ _ _ _ => by rw [canBeEmpty, canBeEmpty, h.canBeEmpty_eq]
  | _, _, .capture _ h => by rw [canBeEmpty, canBeEmpty, h.canBeEmpty_eq]

theorem ReorderedSteps.allCanBeEmpty_eq :
    ∀ {steps steps' : List (Option Axis × Pattern)}, ReorderedSteps steps steps' →
      allCanBeEmpty steps' = allCanBeEmpty steps
  | _, _, .nil => rfl
  | _, _, .cons _ h hs => by
      rw [allCanBeEmpty, allCanBeEmpty, h.canBeEmpty_eq, hs.allCanBeEmpty_eq]

theorem ReorderedBranches.anyCanBeEmpty_eq :
    ∀ {branches branches' : List Pattern}, ReorderedBranches branches branches' →
      anyCanBeEmpty branches' = anyCanBeEmpty branches
  | _, _, .nil => rfl
  | _, _, .cons h hs => by
      rw [anyCanBeEmpty, anyCanBeEmpty, h.canBeEmpty_eq, hs.anyCanBeEmpty_eq]

end

mutual

theorem Reordered.consumesExactlyOne_eq :
    ∀ {p p' : Pattern}, p.Reordered p' → p'.consumesExactlyOne = p.consumesExactlyOne
  | _, _, .test _ | _, _, .anchor _ | _, _, .parent => rfl
  | _, _, .sequence _ | _, _, .repetition _ _ _ _ _ => by
      rw [consumesExactlyOne, consumesExactlyOne]
  | _, _, .alternation h hperm => by
      rw [consumesExactlyOne, consumesExactlyOne, ← h.allConsumeExactlyOne_eq,
        Pattern.allConsumeExactlyOne_eq, Pattern.allConsumeExactlyOne_eq, hperm.all_eq]
  | _, _, .capture _ h => by
      rw [consumesExactlyOne, consumesExactlyOne, h.consumesExactlyOne_eq]

theorem ReorderedBranches.allConsumeExactlyOne_eq :
    ∀ {branches branches' : List Pattern}, ReorderedBranches branches branches' →
      allConsumeExactlyOne branches' = allConsumeExactlyOne branches
  | _, _, .nil => rfl
  | _, _, .cons h hs => by
      rw [allConsumeExactlyOne, allConsumeExactlyOne, h.consumesExactlyOne_eq,
        hs.allConsumeExactlyOne_eq]

end

mutual

/-- **A pattern that is reordered stays proper.** -/
theorem Reordered.proper : ∀ {p p' : Pattern}, p.Reordered p' → p.Proper → p'.Proper
  | _, _, .test _, hp | _, _, .anchor _, hp | _, _, .parent, hp => hp
  | _, _, .sequence h, hp => by
      rw [Proper] at hp ⊢
      exact h.properSteps hp
  | _, _, .alternation h hperm, hp => by
      rw [Proper] at hp ⊢
      obtain ⟨hne, hbranches⟩ := hp
      have hproper := properBranches_iff.mp (h.properBranches hbranches)
      refine ⟨?_, properBranches_iff.mpr fun branch hmem => hproper branch (hperm.mem_iff.mpr hmem)⟩
      rintro rfl
      obtain rfl := hperm.eq_nil
      cases h
      exact hne rfl
  | _, _, .repetition h _ _ _ _, hp => by
      rw [Proper] at hp ⊢
      exact ⟨fun hmax => h.canBeEmpty_eq.trans (hp.1 hmax), h.proper hp.2⟩
  | _, _, .capture _ h, hp => by
      rw [Proper] at hp ⊢
      exact h.proper hp

theorem ReorderedSteps.properSteps :
    ∀ {steps steps' : List (Option Axis × Pattern)}, ReorderedSteps steps steps' →
      ProperSteps steps → ProperSteps steps'
  | _, _, .nil, hp => hp
  | _, _, .cons _ h hs, hp => by
      rw [ProperSteps] at hp ⊢
      exact ⟨h.proper hp.1, hs.properSteps hp.2⟩

theorem ReorderedBranches.properBranches :
    ∀ {branches branches' : List Pattern}, ReorderedBranches branches branches' →
      ProperBranches branches → ProperBranches branches'
  | _, _, .nil, hp => hp
  | _, _, .cons h hs, hp => by
      rw [ProperBranches] at hp ⊢
      exact ⟨h.proper hp.1, hs.properBranches hp.2⟩

end

mutual

/-- A pattern that is reordered makes the same declarations. -/
theorem Reordered.perm_declarations :
    ∀ {p p' : Pattern}, p.Reordered p' → ∀ repeated,
      (p.declarations repeated).Perm (p'.declarations repeated)
  | _, _, .test _, _ | _, _, .anchor _, _ | _, _, .parent, _ => .refl _
  | _, _, .sequence h, repeated => by
      rw [declarations, declarations]
      exact h.perm_declarationsInSteps repeated
  | _, _, .alternation h hperm, repeated => by
      rw [declarations, declarations]
      refine (h.perm_declarationsInBranches repeated).trans ?_
      rw [declarationsInBranches_eq, declarationsInBranches_eq]
      exact hperm.flatMap_right _
  | _, _, .repetition h min max _ _, _ => by
      rw [declarations, declarations]
      split
      · exact .refl _
      · exact h.perm_declarations true
  | _, _, .capture name h, repeated => by
      rw [declarations, declarations, h.consumesExactlyOne_eq]
      exact (h.perm_declarations repeated).cons _

theorem ReorderedSteps.perm_declarationsInSteps :
    ∀ {steps steps' : List (Option Axis × Pattern)}, ReorderedSteps steps steps' → ∀ repeated,
      (declarationsInSteps repeated steps).Perm (declarationsInSteps repeated steps')
  | _, _, .nil, _ => .refl _
  | _, _, .cons _ h hs, repeated => by
      rw [declarationsInSteps, declarationsInSteps]
      exact (h.perm_declarations repeated).append (hs.perm_declarationsInSteps repeated)

theorem ReorderedBranches.perm_declarationsInBranches :
    ∀ {branches branches' : List Pattern}, ReorderedBranches branches branches' → ∀ repeated,
      (declarationsInBranches repeated branches).Perm (declarationsInBranches repeated branches')
  | _, _, .nil, _ => .refl _
  | _, _, .cons h hs, repeated => by
      rw [declarationsInBranches, declarationsInBranches]
      exact (h.perm_declarations repeated).append (hs.perm_declarationsInBranches repeated)

end

/-- **A pattern that is reordered captures under the same names, each of the same kind.** -/
theorem Reordered.perm_captureSlots {p p' : Pattern} (h : p.Reordered p') :
    p.captureSlots.Perm p'.captureSlots :=
  Pattern.perm_captureSlots (h.perm_declarations false)

end TreeRules.Pattern
