/-
New nodes that look like a given tree.

`Extends` says that a forest has only been added to: every node of before has its text, its parent
and its children still, so all that was there looks as it did.  Planting a value tree extends a
forest by a tree of its own that looks like it, and a clone of a node is such a tree.
-/
import TreeRules.Document
import TreeRules.Proofs.Forest.Hang
import TreeRules.Proofs.Forest.Keeps

namespace TreeRules.Forest

variable {f g h : Forest} {n p : NodeId} {tree : ValueTree} {trees : List ValueTree}

/-- Nodes have been added, and those of before are as they were. -/
structure Extends (f g : Forest) : Prop extends f.Grows g where
  children : ∀ n, n < f.size → g.children n = f.children n

/-- The forest has been extended by a tree of its own, whose root is the first new node. -/
structure Planted (f g : Forest) (tree : ValueTree) : Prop extends f.Extends g where
  lt_size : f.size < g.size
  parent_root : g.parent f.size = none
  tree_root : g.tree f.size = tree

/-- Trees have been planted beneath `n`, behind the children that were there. -/
structure PlantedBeneath (f g : Forest) (n : NodeId) (trees : List ValueTree) : Prop
    extends f.Grows g where
  children : ∀ m, m < f.size → m ≠ n → g.children m = f.children m
  children_self : ∃ roots, g.children n = f.children n ++ roots ∧ roots.map g.tree = trees

/-! ### A forest that is extended -/

namespace Extends

theorem value (hg : f.Extends g) (hn : n < f.size) : g.value n = f.value n :=
  hg.keeps.value n hn id

theorem parent (hg : f.Extends g) (hn : n < f.size) : g.parent n = f.parent n :=
  hg.keeps.parent n hn id

/-- What was there looks as it did. -/
theorem tree_eq (hg : f.Extends g) (hf : f.WellFormed) (hn : n < f.size) :
    g.tree n = f.tree n :=
  hf.tree_congr hg.wellFormed n (fun _ hx => hg.value (lt_size_of_within hn hx))
    (fun x hx => hg.children x (lt_size_of_within hn hx))

end Extends

theorem WellFormed.extends_newNode (hf : f.WellFormed) (value : String) :
    f.Extends (f.newNode value).1 where
  toGrows := hf.grows_newNode value
  children := by
    intro n _
    exact children_newNode f value n

/-! ### Planting -/

theorem plant_node (f : Forest) (value : String) (trees : List ValueTree) :
    f.plant (.node value trees) = ((f.newNode value).1.plantBeneath f.size trees, f.size) := by
  rw [plant]
  rfl

theorem plantBeneath_cons (f : Forest) (n : NodeId) (tree : ValueTree) (trees : List ValueTree) :
    f.plantBeneath n (tree :: trees) =
      ((f.plant tree).1.pushChild n f.size).plantBeneath n trees := by
  rw [plantBeneath, ← plant_snd f tree]

/-- The root of a tree that has been planted is loose. -/
theorem Planted.hung_root (hplanted : f.Planted g tree) (hn : n < f.size)
    (htop : f.parent n = none) :
    Hung g (g.pushChild n f.size) n (f.children n) [f.size] [] := by
  have hapart : ¬ g.Within n f.size := by
    intro hwithin
    have htop' : g.parent n = none := (hplanted.parent hn).trans htop
    exact Nat.ne_of_lt hn (eq_of_within_of_parent_none htop' hwithin)
  rw [← hplanted.children n hn]
  exact hung_insertChild hplanted.wellFormed (Nat.lt_trans hn hplanted.lt_size) hplanted.lt_size
    hplanted.parent_root hapart (List.append_nil _).symm

/-- One more tree is planted beneath a node, before others are. -/
theorem PlantedBeneath.cons (hplanted : f.Planted g tree) (hn : n < f.size)
    (htop : f.parent n = none) (hrest : (g.pushChild n f.size).PlantedBeneath h n trees) :
    f.PlantedBeneath h n (tree :: trees) := by
  have hne : n ≠ f.size := Nat.ne_of_lt hn
  have hpush := hplanted.hung_root hn htop
  have hsize : f.size < (g.pushChild n f.size).size := hpush.size.symm ▸ hplanted.lt_size
  refine ⟨?_, ?_, ?_⟩
  · exact (hplanted.toGrows.pushChild (Nat.lt_trans hn hplanted.lt_size) hplanted.lt_size
      (Nat.le_refl _)).trans hrest.toGrows
  · intro m hm hmn
    rw [hrest.children m (Nat.lt_trans hm hsize) hmn, hpush.children m hmn, hplanted.children m hm]
  · obtain ⟨roots, hroots, htrees⟩ := hrest.children_self
    refine ⟨f.size :: roots, ?_, ?_⟩
    · rw [hroots, hpush.children_self]
      simp
    · -- the tree in which `n` lies is not the one planted first, neither now nor later
      have htop' : g.parent n = none := (hplanted.parent hn).trans htop
      have htop'' : (g.pushChild n f.size).parent n = none := by
        rw [hpush.parent, if_neg (by simpa using hne), htop']
      have hroot : h.tree f.size = (g.pushChild n f.size).tree f.size := by
        refine hpush.wellFormed.tree_congr hrest.wellFormed _ (fun x hx => ?_) fun x hx => ?_
        · exact hrest.keeps.value x (lt_size_of_within hsize hx) id
        · refine hrest.children x (lt_size_of_within hsize hx) ?_
          rintro rfl
          exact hne (eq_of_within_of_parent_none htop'' hx)
      have hfirst : (g.pushChild n f.size).tree f.size = tree := by
        rw [hpush.tree_eq hplanted.wellFormed fun hw => hne (eq_of_within_of_parent_none htop' hw),
          hplanted.tree_root]
      rw [List.map_cons, htrees, hroot, hfirst]

mutual

/-- **A tree that is planted looks as it should.** -/
theorem planted_plant : ∀ (tree : ValueTree) {f : Forest}, f.WellFormed →
    f.Planted (f.plant tree).1 tree
  | .node value trees, f, hf => by
      have hnew := hf.extends_newNode value
      have hlt := lt_size_newNode f value
      have htop := parent_newNode_self f value
      have hbeneath := planted_plantBeneath trees hnew.wellFormed hlt htop
      obtain ⟨roots, hroots, htrees⟩ := hbeneath.children_self
      rw [children_newNode, children_of_size_le (Nat.le_refl _), List.nil_append] at hroots
      rw [plant_node]
      refine ⟨⟨hnew.toGrows.trans hbeneath.toGrows, ?_⟩, ?_, ?_, ?_⟩
      · intro n hn
        exact (hbeneath.children n (Nat.lt_trans hn hlt) (Nat.ne_of_lt hn)).trans
          (hnew.children n hn)
      · exact Nat.lt_of_lt_of_le hlt hbeneath.keeps.size_le
      · exact (hbeneath.keeps.parent f.size hlt id).trans htop
      · rw [hbeneath.wellFormed.tree_eq, hbeneath.keeps.value f.size hlt id, value_newNode,
          if_pos rfl, hroots, htrees]

theorem planted_plantBeneath : ∀ (trees : List ValueTree) {f : Forest} {n : NodeId},
    f.WellFormed → n < f.size → f.parent n = none →
    f.PlantedBeneath (f.plantBeneath n trees) n trees
  | [], f, n, hf, _, _ => by
      rw [plantBeneath]
      exact ⟨Grows.refl hf, fun _ _ _ => rfl, [], (List.append_nil _).symm, rfl⟩
  | tree :: trees, f, n, hf, hn, htop => by
      have hplanted := planted_plant tree hf
      have hpush := hplanted.hung_root hn htop
      have hn' : n < ((f.plant tree).1.pushChild n f.size).size := by
        rw [hpush.size]
        exact Nat.lt_trans hn hplanted.lt_size
      have htop' : ((f.plant tree).1.pushChild n f.size).parent n = none := by
        rw [hpush.parent, if_neg (by simpa using Nat.ne_of_lt hn), hplanted.parent hn, htop]
      rw [plantBeneath_cons]
      exact PlantedBeneath.cons hplanted hn htop
        (planted_plantBeneath trees hpush.wellFormed hn' htop')

end

/-- **A clone looks like its node.** -/
theorem planted_deepClone (hf : f.WellFormed) (n : NodeId) :
    f.Planted (f.deepClone n).1 (f.tree n) :=
  planted_plant (f.tree n) hf

/-- A document of new nodes looks like the tree it was made of. -/
theorem tree_ofTree (tree : ValueTree) : (Document.ofTree tree).tree = tree := by
  have hroot := (planted_plant tree wellFormed_empty).tree_root
  rwa [← plant_snd] at hroot

end TreeRules.Forest
