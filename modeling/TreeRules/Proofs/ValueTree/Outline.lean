/-
Trees from their outlines.

While the outline of a tree is taken in, the open lines are those of the node read last and of the
nodes above it.  What counts of them is what is left once the lines that are indented as much as
the next one are completed: `Beneath` names the line that the next one will lie beneath.  A tree
that has been taken in whole is one more child of that line, and nothing else has changed.
-/
import TreeRules.ValueTree.Outline

namespace TreeRules.ValueTree

namespace OpenLine

variable {width width' : Nat} {line parent : OpenLine} {lines outers : List OpenLine}

theorem closeTo_of_lt (h : line.width < width) (outers : List OpenLine) :
    closeTo width line outers = (line, outers) := by
  cases outers with
  | nil => rfl
  | cons outer outers => rw [closeTo, if_neg (Nat.not_le_of_lt h)]

/-- Lines that are completed in two goes might as well be completed at once. -/
theorem closeTo_closeTo (h : width ≤ width') (line : OpenLine) (outers : List OpenLine) :
    closeTo width (closeTo width' line outers).1 (closeTo width' line outers).2 =
      closeTo width line outers := by
  induction outers generalizing line with
  | nil => rfl
  | cons outer outers ih =>
      by_cases hline : width' ≤ line.width
      · rw [closeTo, if_pos hline, ih, closeTo, if_pos (Nat.le_trans h hline)]
      · rw [closeTo, if_neg hline]

/-- At the end all lines are completed. -/
theorem closeAll_eq (line : OpenLine) (outers : List OpenLine) :
    closeAll (line :: outers) = some (closeTo 0 line outers).1.tree := by
  induction outers generalizing line with
  | nil => rfl
  | cons outer outers ih =>
      rw [closeTo, if_pos (Nat.zero_le _), ← ih]
      rfl

theorem foldl_add (line : OpenLine) (trees : List ValueTree) :
    trees.foldl add line = { line with before := trees.reverse ++ line.before } := by
  induction trees generalizing line with
  | nil => rfl
  | cons tree trees ih =>
      rw [List.foldl_cons, ih]
      simp [add]

/-- The next line, if it is indented by `width`, will lie beneath `parent`, which `outers` lie
around. -/
def Beneath (width : Nat) (lines : List OpenLine) (parent : OpenLine) (outers : List OpenLine) :
    Prop :=
  ∃ innermost rest, lines = innermost :: rest ∧ closeTo width innermost rest = (parent, outers)

theorem beneath_of_lt (h : line.width < width) (outers : List OpenLine) :
    Beneath width (line :: outers) line outers :=
  ⟨line, outers, rfl, closeTo_of_lt h outers⟩

theorem Beneath.takeIn (h : Beneath width lines parent outers) (hlt : parent.width < width)
    (value : String) :
    OpenLine.takeIn width value lines = some (⟨width, value, []⟩ :: parent :: outers) := by
  obtain ⟨innermost, rest, rfl, hclose⟩ := h
  rw [OpenLine.takeIn, hclose]
  exact if_neg (Nat.not_le_of_lt hlt)

/-- A line that is indented less completes the parent. -/
theorem Beneath.complete {self : OpenLine} (h : Beneath width' lines self (parent :: outers))
    (hle : width ≤ width') (hself : width ≤ self.width) (hparent : parent.width < width) :
    Beneath width lines (parent.add self.tree) outers := by
  obtain ⟨innermost, rest, rfl, hclose⟩ := h
  refine ⟨innermost, rest, rfl, ?_⟩
  rw [← closeTo_closeTo hle, hclose, closeTo, if_pos hself]
  exact closeTo_of_lt (show (parent.add self.tree).width < width from hparent) outers

end OpenLine

open OpenLine

/-- Takes in a node at some depth, with the indentation that its depth has. -/
def takeNode (indent : Nat → Nat) (lines : List OpenLine) (entry : Nat × String) :
    Option (List OpenLine) :=
  takeIn (indent entry.1) entry.2 lines

variable {indent : Nat → Nat}

mutual

/-- **The outline of a tree is taken in as one more child.** -/
theorem exists_beneath_outlineFrom (deeper : ∀ depth, indent depth < indent (depth + 1)) :
    ∀ (tree : ValueTree) {depth : Nat} {lines outers : List OpenLine} {parent : OpenLine},
    Beneath (indent depth) lines parent outers → parent.width < indent depth →
    ∃ lines', (tree.outlineFrom depth).foldlM (takeNode indent) lines = some lines' ∧
      Beneath (indent depth) lines' (parent.add tree) outers
  | .node value children, depth, lines, outers, parent, h, hlt => by
      have hself : Beneath (indent (depth + 1)) (⟨indent depth, value, []⟩ :: parent :: outers)
          ⟨indent depth, value, []⟩ (parent :: outers) := beneath_of_lt (deeper depth) _
      obtain ⟨lines', hrun, hlines'⟩ :=
        exists_beneath_outlinesFrom deeper children hself (deeper depth)
      refine ⟨lines', ?_, ?_⟩
      · rw [outlineFrom, List.foldlM_cons]
        show (takeIn (indent depth) value lines >>= _) = _
        rw [h.takeIn hlt]
        exact hrun
      · rw [foldl_add] at hlines'
        have hdone := hlines'.complete (Nat.le_of_lt (deeper depth)) (Nat.le_refl _) hlt
        simpa [OpenLine.tree] using hdone

/-- The outlines of trees are taken in as so many children. -/
theorem exists_beneath_outlinesFrom (deeper : ∀ depth, indent depth < indent (depth + 1)) :
    ∀ (trees : List ValueTree) {depth : Nat} {lines outers : List OpenLine} {parent : OpenLine},
    Beneath (indent (depth + 1)) lines parent outers → parent.width < indent (depth + 1) →
    ∃ lines', (outlinesFrom (depth + 1) trees).foldlM (takeNode indent) lines = some lines' ∧
      Beneath (indent (depth + 1)) lines' (trees.foldl OpenLine.add parent) outers
  | [], depth, lines, outers, parent, h, _ => by
      rw [outlinesFrom]
      exact ⟨lines, rfl, h⟩
  | tree :: trees, depth, lines, outers, parent, h, hlt => by
      obtain ⟨lines₁, hrun₁, h₁⟩ := exists_beneath_outlineFrom deeper tree h hlt
      obtain ⟨lines₂, hrun₂, h₂⟩ := exists_beneath_outlinesFrom deeper trees h₁ hlt
      refine ⟨lines₂, ?_, h₂⟩
      rw [outlinesFrom, List.foldlM_append, hrun₁]
      exact hrun₂

end

/-- **A tree is made again from its outline**, whatever the indentations are, as long as they grow
with the depth. -/
theorem closeAll_outline (deeper : ∀ depth, indent depth < indent (depth + 1)) (tree : ValueTree) :
    (tree.outline.foldlM (takeNode indent) []).bind closeAll = some tree := by
  obtain ⟨value, children⟩ := tree
  have hself : Beneath (indent 1) [⟨indent 0, value, []⟩] ⟨indent 0, value, []⟩ [] :=
    beneath_of_lt (deeper 0) []
  obtain ⟨lines, hrun, innermost, rest, rfl, hclose⟩ :=
    exists_beneath_outlinesFrom deeper children hself (deeper 0)
  have houtline : (outline (.node value children)).foldlM (takeNode indent) [] =
      some (innermost :: rest) := by
    rw [outline, outlineFrom, List.foldlM_cons]
    exact hrun
  have htree : closeTo 0 innermost rest =
      (⟨indent 0, value, children.reverse⟩, []) := by
    rw [← closeTo_closeTo (Nat.zero_le (indent 1)), hclose, foldl_add, List.append_nil]
    rfl
  rw [houtline]
  show closeAll (innermost :: rest) = _
  rw [closeAll_eq, htree, OpenLine.tree, List.reverse_reverse]

end TreeRules.ValueTree
