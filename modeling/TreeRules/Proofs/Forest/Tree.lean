/-
What a forest looks like.

A node's subtree is read off as a value tree by a walk down that is bounded by the number of nodes.
In a well-formed forest the bound is never felt: a node's tree is its text over the trees of its
children.  So it depends on nothing but the texts and children of the nodes at and beneath it.

`substitute` reads a subtree in the same way but has other trees stand in the place of some nodes,
all at once.  With no such node it is the tree itself.
-/
import TreeRules.Proofs.Forest.WellFormed

namespace TreeRules.Forest

variable {f g : Forest} {image image' : NodeId → Option (List ValueTree)} {n : NodeId}

/-- The first levels of a node's subtree, with the images of some nodes in the place of their
subtrees. -/
def substituteWithin (f : Forest) (image : NodeId → Option (List ValueTree)) :
    Nat → NodeId → List ValueTree
  | 0, n => (image n).getD [.node (f.value n) []]
  | bound + 1, n =>
    (image n).getD
      [.node (f.value n) ((f.children n).flatMap (f.substituteWithin image bound))]

/-- A node's subtree with the images of some nodes in the place of their subtrees, among the trees
that stand beside them. -/
def substitute (f : Forest) (image : NodeId → Option (List ValueTree)) (n : NodeId) :
    List ValueTree :=
  f.substituteWithin image f.size n

theorem children_of_size_le (h : f.size ≤ n) : f.children n = [] := by
  refine List.eq_nil_iff_forall_not_mem.mpr fun c hc => ?_
  exact Nat.not_lt.mpr h (lt_size_of_mem_children hc)

theorem substituteWithin_none (f : Forest) (bound : Nat) :
    ∀ n, f.substituteWithin (fun _ => none) bound n = [f.treeWithin bound n] := by
  induction bound with
  | zero => intro n; rfl
  | succ bound ih =>
      intro n
      rw [substituteWithin, treeWithin, Option.getD_none]
      congr 2
      rw [List.map_eq_flatMap]
      exact List.flatMap_congr fun c _ => ih c

theorem substitute_none (f : Forest) (n : NodeId) :
    f.substitute (fun _ => none) n = [f.tree n] :=
  substituteWithin_none f f.size n

namespace WellFormed

/-- More room makes no difference. -/
theorem substituteWithin_eq (hf : f.WellFormed) (room : Nat) :
    ∀ n more, f.size < room + (f.ancestors n).length →
      f.substituteWithin image (room + more) n = f.substituteWithin image room n := by
  induction room with
  | zero =>
      intro n more h
      -- no chain of parents is that long, unless the node is not in the forest
      have hsize : f.size ≤ n := by
        by_contra hn
        have := hf.length_ancestorsWithin_le (Nat.lt_of_not_le hn) (f.size + 1)
        rw [Nat.zero_add] at h
        exact Nat.not_lt.mpr this h
      rw [Nat.zero_add]
      cases more with
      | zero => rfl
      | succ more => rw [substituteWithin, substituteWithin, children_of_size_le hsize]; rfl
  | succ room ih =>
      intro n more h
      rw [Nat.add_right_comm, substituteWithin, substituteWithin]
      congr 3
      refine List.flatMap_congr fun c hc => ih c more ?_
      rw [hf.ancestors_of_parent ((hf.parent_iff c n).mpr hc), List.length_cons]
      omega

/-- **A node with an image is read as that, any other as its text over what its children are read
as.** -/
theorem substitute_eq (hf : f.WellFormed) (image : NodeId → Option (List ValueTree)) (n : NodeId) :
    f.substitute image n =
      (image n).getD [.node (f.value n) ((f.children n).flatMap (f.substitute image))] := by
  have hpos := length_ancestors_pos f n
  have hmore : f.substituteWithin image (f.size + 1) n = f.substitute image n :=
    hf.substituteWithin_eq f.size n 1 (by omega)
  rw [← hmore]
  rfl

/-- **A node's tree is its text over the trees of its children.** -/
theorem tree_eq (hf : f.WellFormed) (n : NodeId) :
    f.tree n = .node (f.value n) ((f.children n).map f.tree) := by
  have hnone := hf.substitute_eq (fun _ => none) n
  rw [substitute_none, Option.getD_none, List.cons.injEq] at hnone
  rw [hnone.1, List.map_eq_flatMap]
  congr 1
  exact List.flatMap_congr fun c _ => substitute_none f c

/-- What is read depends only on the nodes at and beneath the node. -/
theorem substitute_congr (hf : f.WellFormed) (hg : g.WellFormed) (n : NodeId)
    (hvalue : ∀ x, f.Within x n → g.value x = f.value x)
    (hchildren : ∀ x, f.Within x n → g.children x = f.children x)
    (himage : ∀ x, f.Within x n → image' x = image x) :
    g.substitute image' n = f.substitute image n := by
  induction n using hf.down_induction with
  | step n ih =>
      have hself := Within.refl (f := f) n
      rw [hf.substitute_eq, hg.substitute_eq, hvalue n hself, hchildren n hself, himage n hself]
      congr 3
      refine List.flatMap_congr fun c hc => ?_
      have hbeneath : ∀ x, f.Within x c → f.Within x n := by
        intro x hx
        exact hx.tail ((hf.parent_iff c n).mpr hc)
      exact ih c hc (fun x hx => hvalue x (hbeneath x hx)) (fun x hx => hchildren x (hbeneath x hx))
        (fun x hx => himage x (hbeneath x hx))

theorem tree_congr (hf : f.WellFormed) (hg : g.WellFormed) (n : NodeId)
    (hvalue : ∀ x, f.Within x n → g.value x = f.value x)
    (hchildren : ∀ x, f.Within x n → g.children x = f.children x) : g.tree n = f.tree n := by
  have hnone : g.substitute (fun _ => none) n = f.substitute (fun _ => none) n :=
    hf.substitute_congr hg n hvalue hchildren fun _ _ => rfl
  rw [substitute_none, substitute_none] at hnone
  exact (List.cons.inj hnone).1

/-- Where no node at or beneath the node has an image, its tree is read. -/
theorem substitute_of_none (hf : f.WellFormed) (n : NodeId)
    (himage : ∀ x, f.Within x n → image x = none) : f.substitute image n = [f.tree n] := by
  rw [← substitute_none]
  exact hf.substitute_congr hf n (fun _ _ => rfl) (fun _ _ => rfl) himage

end WellFormed

end TreeRules.Forest
