/-
Subtrees that look alike, node by node.

Two nodes look alike if the value trees that are read off at them are equal.  Then the walks down
from them are equally long, and the nodes that stand at the same place in both are counterparts of
one another.  Counterparts look alike again, their children are counterparts one by one, and so are
the nodes beneath them.  No node has two counterparts, since no walk comes to a node twice.

A clone looks like its node, so that is how the nodes of the one answer to those of the other.
-/
import Mathlib.Data.List.Forall2
import TreeRules.Proofs.Forest.Plant
import TreeRules.Proofs.Forest.Preorder

namespace TreeRules.Forest

variable {f g : Forest} {a b c d x y n : NodeId}

/-! ### Side by side -/

section

variable {F G : NodeId → List NodeId} {cs ds : List NodeId}

theorem length_flatMap_eq (h : List.Forall₂ (fun c d => (F c).length = (G d).length) cs ds) :
    (cs.flatMap F).length = (ds.flatMap G).length := by
  induction h with
  | nil => rfl
  | cons hlength _ ih =>
      rw [List.flatMap_cons, List.flatMap_cons, List.length_append, List.length_append, hlength, ih]

/-- Two walks side by side, each in equally many equally long parts. -/
theorem zip_flatMap (h : List.Forall₂ (fun c d => (F c).length = (G d).length) cs ds) :
    (cs.flatMap F).zip (ds.flatMap G) =
      (cs.zip ds).flatMap fun pair => (F pair.1).zip (G pair.2) := by
  induction h with
  | nil => rfl
  | cons hlength _ ih =>
      rw [List.flatMap_cons, List.flatMap_cons, List.zip_append hlength, ih, List.zip_cons_cons,
        List.flatMap_cons]

end

/-! ### Looking alike -/

theorem value_tree (f : Forest) (n : NodeId) : (f.tree n).value = f.value n := by
  unfold tree
  cases f.size <;> rfl

namespace WellFormed

/-- The children of nodes that look alike do so one by one. -/
theorem forall₂_children_of_tree_eq (hf : f.WellFormed) (hg : g.WellFormed)
    (h : f.tree a = g.tree b) :
    List.Forall₂ (fun c d => f.tree c = g.tree d) (f.children a) (g.children b) := by
  rw [hf.tree_eq, hg.tree_eq, ValueTree.node.injEq] at h
  have hmap := h.2
  rwa [← List.forall₂_eq_eq_eq, List.forall₂_map_left_iff, List.forall₂_map_right_iff] at hmap

theorem length_preorder_of_tree_eq (hf : f.WellFormed) (hg : g.WellFormed)
    (h : f.tree a = g.tree b) : (f.preorder a).length = (g.preorder b).length := by
  induction a using hf.down_induction generalizing b with
  | step a ih =>
      have hlengths : List.Forall₂ (fun c d => (f.preorder c).length = (g.preorder d).length)
          (f.children a) (g.children b) := by
        have hchildren := hf.forall₂_children_of_tree_eq hg h
        rw [List.forall₂_iff_zip] at hchildren ⊢
        exact ⟨hchildren.1, fun hcd => ih _ (List.of_mem_zip hcd).1 (hchildren.2 hcd)⟩
      rw [hf.preorder_eq, hg.preorder_eq, List.length_cons, List.length_cons,
        length_flatMap_eq hlengths]

end WellFormed

/-! ### Counterparts -/

/-- `x` stands at the same place in the walk down from `a` as `y` in the walk down from `b`. -/
def Counterpart (f g : Forest) (a b : NodeId) (x y : NodeId) : Prop :=
  ∃ i : Nat, (f.preorder a)[i]? = some x ∧ (g.preorder b)[i]? = some y

theorem counterpart_iff_mem_zip :
    Counterpart f g a b x y ↔ (x, y) ∈ (f.preorder a).zip (g.preorder b) := by
  rw [List.mem_iff_getElem?]
  simp only [List.getElem?_zip_eq_some]
  rfl

theorem Counterpart.mem_left (h : Counterpart f g a b x y) : x ∈ f.preorder a := by
  obtain ⟨i, hx, -⟩ := h
  exact List.mem_of_getElem? hx

namespace WellFormed

/-- **No node has two counterparts**, and none is the counterpart of two. -/
theorem biUnique_counterpart (hf : f.WellFormed) (hg : g.WellFormed) (a b : NodeId) :
    Relator.BiUnique (Counterpart f g a b) := by
  constructor
  · rintro x y x' ⟨i, hx, hy⟩ ⟨j, hx', hy'⟩
    have hlt := (List.getElem?_eq_some_iff.mp hy).1
    obtain rfl := (List.getElem?_inj hlt (hg.nodup_preorder b)).mp (hy.trans hy'.symm)
    exact Option.some.inj (hx.symm.trans hx')
  · rintro x y y' ⟨i, hx, hy⟩ ⟨j, hx', hy'⟩
    have hlt := (List.getElem?_eq_some_iff.mp hx).1
    obtain rfl := (List.getElem?_inj hlt (hf.nodup_preorder a)).mp (hx.trans hx'.symm)
    exact Option.some.inj (hy.symm.trans hy')

theorem counterpart_self (hf : f.WellFormed) (hg : g.WellFormed) (a b : NodeId) :
    Counterpart f g a b a b := by
  refine ⟨0, ?_, ?_⟩
  · rw [hf.preorder_eq]
    rfl
  · rw [hg.preorder_eq]
    rfl

end WellFormed

/-- Counterparts are the nodes themselves, or counterparts beneath children that answer to one
another. -/
theorem counterpart_cases (hf : f.WellFormed) (hg : g.WellFormed) (h : f.tree a = g.tree b) :
    Counterpart f g a b x y ↔ (x = a ∧ y = b) ∨
      ∃ c d, (c, d) ∈ (f.children a).zip (g.children b) ∧ Counterpart f g c d x y := by
  have hlengths := (hf.forall₂_children_of_tree_eq hg h).imp fun c d =>
    hf.length_preorder_of_tree_eq hg
  rw [counterpart_iff_mem_zip, hf.preorder_eq, hg.preorder_eq, List.zip_cons_cons,
    zip_flatMap hlengths]
  simp [counterpart_iff_mem_zip]

/-- **Counterparts look alike.** -/
theorem Counterpart.tree_eq (hxy : Counterpart f g a b x y) (hf : f.WellFormed) (hg : g.WellFormed)
    (h : f.tree a = g.tree b) : f.tree x = g.tree y := by
  induction a using hf.down_induction generalizing b with
  | step a ih =>
      rcases (counterpart_cases hf hg h).mp hxy with ⟨rfl, rfl⟩ | ⟨c, d, hcd, hxy⟩
      · exact h
      · have htree := List.forall₂_zip (hf.forall₂_children_of_tree_eq hg h) hcd
        exact ih c (List.of_mem_zip hcd).1 hxy htree

/-- A counterpart's counterpart is a counterpart. -/
theorem Counterpart.trans (hcd : Counterpart f g a b c d) (hxy : Counterpart f g c d x y)
    (hf : f.WellFormed) (hg : g.WellFormed) (h : f.tree a = g.tree b) :
    Counterpart f g a b x y := by
  induction a using hf.down_induction generalizing b with
  | step a ih =>
      rw [counterpart_cases hf hg h]
      rcases (counterpart_cases hf hg h).mp hcd with ⟨rfl, rfl⟩ | ⟨c', d', hmem, hcd⟩
      · exact (counterpart_cases hf hg h).mp hxy
      · have htree := List.forall₂_zip (hf.forall₂_children_of_tree_eq hg h) hmem
        exact Or.inr ⟨c', d', hmem, ih c' (List.of_mem_zip hmem).1 hcd htree⟩

/-- **The walks down from counterparts come to counterparts one by one.** -/
theorem Counterpart.forall₂_preorder (hxy : Counterpart f g a b x y) (hf : f.WellFormed)
    (hg : g.WellFormed) (h : f.tree a = g.tree b) :
    List.Forall₂ (Counterpart f g a b) (f.preorder x) (g.preorder y) := by
  rw [List.forall₂_iff_zip]
  refine ⟨hf.length_preorder_of_tree_eq hg (hxy.tree_eq hf hg h), fun hmem => ?_⟩
  exact hxy.trans (counterpart_iff_mem_zip.mpr hmem) hf hg h

theorem Counterpart.forall₂_children (hxy : Counterpart f g a b x y) (hf : f.WellFormed)
    (hg : g.WellFormed) (h : f.tree a = g.tree b) :
    List.Forall₂ (Counterpart f g a b) (f.children x) (g.children y) := by
  have htree := hxy.tree_eq hf hg h
  rw [List.forall₂_iff_zip]
  refine ⟨(hf.forall₂_children_of_tree_eq hg htree).length_eq, fun {c d} hmem => ?_⟩
  refine hxy.trans ?_ hf hg h
  exact (counterpart_cases hf hg htree).mpr (Or.inr ⟨c, d, hmem, hf.counterpart_self hg c d⟩)

end TreeRules.Forest
