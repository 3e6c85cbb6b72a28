/-
The walk down comes to no node twice.

Two nodes of which neither lies within the other have nothing at or beneath them in common: the
chain of parents of a common node would have to go through both.  So the subtrees of the children
of a node are apart, and with them the whole walk is without repetition.  The same holds for the
subtrees of several nodes that have no parent.
-/
import Mathlib.Data.List.Nodup
import TreeRules.Proofs.Forest.WellFormed

namespace TreeRules.Forest

variable {f g : Forest} {a b c n p : NodeId} {roots : List NodeId}

/-- A node lies within no more than one of several nodes that have no parent. -/
theorem eq_of_within_tops (htop : f.parent a = none) (htop' : f.parent b = none)
    (ha : f.Within n a) (hb : f.Within n b) : a = b := by
  rcases within_total ha hb with h | h
  · exact eq_of_within_of_parent_none htop h
  · exact (eq_of_within_of_parent_none htop' h).symm

namespace WellFormed

/-- Nodes that do not lie within one another have no node in common at or beneath them. -/
theorem disjoint_preorder (hf : f.WellFormed) (hab : ¬ f.Within a b) (hba : ¬ f.Within b a) :
    (f.preorder a).Disjoint (f.preorder b) := by
  intro n hna hnb
  rw [hf.mem_preorder_iff] at hna hnb
  rcases within_total hna hnb with h | h
  · exact hab h
  · exact hba h

/-- Neither of two children of a node lies within the other. -/
theorem not_within_sibling (hf : f.WellFormed) (ha : a ∈ f.children p) (hb : b ∈ f.children p)
    (hne : a ≠ b) : ¬ f.Within a b := by
  intro hw
  rw [← hf.parent_iff] at ha hb
  rcases within_cases hw with heq | ⟨q, hq, hqb⟩
  · exact hne heq
  · obtain rfl := Option.some.inj (hq.symm.trans ha)
    exact hf.acyclic b (Relation.TransGen.head' hb hqb)

/-- **No node is come to twice.** -/
theorem nodup_preorder (hf : f.WellFormed) (n : NodeId) : (f.preorder n).Nodup := by
  induction n using hf.down_induction with
  | step n ih =>
      rw [hf.preorder_eq, List.nodup_cons, List.nodup_flatMap]
      refine ⟨fun hmem => ?_, ih, (hf.nodup n).pairwise_of_forall_ne fun a ha b hb hne => ?_⟩
      · obtain ⟨c, hc, hn⟩ := List.mem_flatMap.mp hmem
        rw [hf.mem_preorder_iff] at hn
        exact hf.acyclic c (Relation.TransGen.head' ((hf.parent_iff c n).mpr hc) hn)
      · exact hf.disjoint_preorder (hf.not_within_sibling ha hb hne)
          (hf.not_within_sibling hb ha (Ne.symm hne))

/-- Nor are the subtrees of different nodes that have no parent. -/
theorem nodup_flatMap_preorder (hf : f.WellFormed) (hroots : roots.Nodup)
    (htop : ∀ r ∈ roots, f.parent r = none) : (roots.flatMap f.preorder).Nodup := by
  rw [List.nodup_flatMap]
  refine ⟨fun r _ => hf.nodup_preorder r, hroots.pairwise_of_forall_ne fun a ha b hb hne => ?_⟩
  refine hf.disjoint_preorder (fun hw => ?_) fun hw => ?_
  · exact hne (eq_of_within_of_parent_none (htop a ha) hw)
  · exact hne (eq_of_within_of_parent_none (htop b hb) hw).symm

/-- The walk depends only on the children of the nodes that it comes to. -/
theorem preorder_congr (hf : f.WellFormed) (hg : g.WellFormed) (n : NodeId)
    (hchildren : ∀ x, f.Within x n → g.children x = f.children x) :
    g.preorder n = f.preorder n := by
  induction n using hf.down_induction with
  | step n ih =>
      rw [hf.preorder_eq, hg.preorder_eq, hchildren n (Within.refl n)]
      congr 1
      refine List.flatMap_congr fun c hc => ih c hc fun x hx => ?_
      exact hchildren x (hx.tail ((hf.parent_iff c n).mpr hc))

end WellFormed

end TreeRules.Forest
