/-
Patterns that only look down.

From a node at or beneath the root of a subtree, what lies beneath it is in the subtree.  So a
pattern that follows no other axis and steps to no parent never leaves the subtree in which it is
searched for, and cannot tell whether there is anything around it.  A clone of the subtree stands
alone and looks like it, so what is found in the clone is what is found in place, with each node
answered to by the one at the same place of the walk down.

A slash in front of the pattern makes no difference to this, since the root of the subtree is where
either search starts.
-/
import TreeRules.Proofs.Matching.Mirrored

namespace TreeRules

open List (Forall₂)
open Forest (Counterpart)

variable {f g : Forest} {a b n n' : NodeId} {predicates : Predicates}

/-- **To a pattern that only looks down, subtrees that look alike are the same.** -/
theorem Scene.mirrors_of_tree_eq (hf : f.WellFormed) (hg : g.WellFormed) (h : f.tree a = g.tree b)
    (hn : Counterpart f g a b n n') :
    Scene.Mirrors ⟨f, predicates, a, n⟩ ⟨g, predicates, b, n'⟩ .downward (Counterpart f g a b) where
  wellFormed := hf
  wellFormed' := hg
  biUnique := hf.biUnique_counterpart hg a b
  predicates := rfl
  start := hn
  anchored := by
    intro _
    have hroots := hf.counterpart_self hg a b
    exact Relator.rel_eq (hf.biUnique_counterpart hg a b) hn hroots
  tree := by
    intro x y hxy
    exact hxy.tree_eq hf hg h
  along := by
    intro axis haxis x y hxy
    cases axis with
    | child => exact hxy.forall₂_children hf hg h
    | descendant =>
        have hwalks := hxy.forall₂_preorder hf hg h
        rw [hf.preorder_eq, hg.preorder_eq] at hwalks
        show Forall₂ _ (f.preorder x).tail (g.preorder y).tail
        rw [hf.preorder_eq, hg.preorder_eq]
        exact (List.forall₂_cons.mp hwalks).2
    | nextSibling => exact absurd haxis Bool.false_ne_true
    | anySibling => exact absurd haxis Bool.false_ne_true
  parent := by
    intro hclimbs
    exact absurd hclimbs Bool.false_ne_true

namespace CompiledPattern

variable {text : String} {settings : Settings} {p : CompiledPattern}

/-- What is found in a subtree is found in any other that looks like it. -/
theorem forall₂_findAll_of_tree_eq (h : read text settings = .ok p)
    (hdown : p.pattern.keepsTo .downward = true) (hf : f.WellFormed) (hg : g.WellFormed)
    (htree : f.tree a = g.tree b) (predicates : Predicates) (limits : Settings) :
    Forall₂ (Match.Mirrors (Counterpart f g a b)) (p.findAll f predicates limits a)
      (p.findAll g predicates limits b) :=
  forall₂_findAll h (fun _ _ hn => Scene.mirrors_of_tree_eq hf hg htree hn)
    (fun _ _ hn => hn.forall₂_preorder hf hg htree) (hf.counterpart_self hg a b) hdown rfl limits

/-- **Patterns that only look down are local.**  If a pattern uses only the child and the descendant
axis and no step to a parent, what is found in a subtree consumes nodes of that subtree only.  In a
clone of the subtree as many matches are found in the same order, and each node that they name, be
it the start, the target, consumed or captured, stands at the same place of the walk down as the one
that is named in its place in the subtree itself. -/
theorem findAll_deepClone (h : read text settings = .ok p)
    (hdown : p.pattern.keepsTo .downward = true) (hf : f.WellFormed) (n : NodeId)
    (predicates : Predicates) (limits : Settings) :
    (∀ m ∈ p.findAll f predicates limits n, m.consumed ⊆ f.preorder n) ∧
    Forall₂ (Match.Mirrors (Counterpart f (f.deepClone n).1 n (f.deepClone n).2))
      (p.findAll f predicates limits n)
      (p.findAll (f.deepClone n).1 predicates limits (f.deepClone n).2) := by
  have hclone := Forest.planted_deepClone hf n
  have htree : f.tree n = (f.deepClone n).1.tree (f.deepClone n).2 := by
    rw [← hclone.tree_root, Forest.deepClone, Forest.plant_snd]
  have hmatches := forall₂_findAll_of_tree_eq h hdown hf hclone.wellFormed htree predicates limits
  refine ⟨?_, hmatches⟩
  intro m hm x hx
  obtain ⟨m', -, hmirrors⟩ := exists_of_mem_forall₂ hmatches hm
  obtain ⟨x', -, hcounterpart⟩ := exists_of_mem_forall₂ hmirrors.consumed hx
  exact hcounterpart.mem_left

/-- Nodes that are captured somewhere beneath another one. -/
def capturedBelow : CompiledPattern :=
  let pattern : Pattern := .sequence
    [(none, .test (.literal "a")), (some .descendant, .capture "x" (.test (.literal "b")))]
  { source := "a//x:b", pattern, program := pattern.compile, template := none, predicates := [] }

theorem read_capturedBelow : read "a//x:b" {} = .ok capturedBelow := by
  cbv

/-- A node in the middle of a tree, with nodes that look alike on two levels beneath it. -/
def middleNode : Document :=
  Document.ofTree (.node "b" [.node "a" [.node "c" [.node "b" []], .node "b" []], .node "b" []])

/-- In a clone of the node in the middle the same is found as beneath the node itself. -/
theorem findAll_deepClone_middleNode :
    capturedBelow.pattern.keepsTo .downward = true ∧ middleNode.forest.WellFormed ∧
      capturedBelow.findAll middleNode.forest {} {} 1 =
        [⟨1, 3, [1, 3], [("x", .single 3)]⟩, ⟨1, 4, [1, 4], [("x", .single 4)]⟩] ∧
      Forall₂ (Match.Mirrors (Counterpart middleNode.forest (middleNode.forest.deepClone 1).1 1 6))
        (capturedBelow.findAll middleNode.forest {} {} 1)
        (capturedBelow.findAll (middleNode.forest.deepClone 1).1 {} {} 6) := by
  have hdown : capturedBelow.pattern.keepsTo .downward = true := by decide +kernel
  have hf : middleNode.forest.WellFormed := Forest.wellFormed_ofTree _
  have hroot : (middleNode.forest.deepClone 1).2 = 6 := by decide +kernel
  obtain ⟨-, hmatches⟩ := findAll_deepClone read_capturedBelow hdown hf 1 {} {}
  rw [hroot] at hmatches
  refine ⟨hdown, hf, ?_, hmatches⟩
  rw [findAll_eq_take read_capturedBelow hf]
  decide +kernel

end CompiledPattern

end TreeRules
