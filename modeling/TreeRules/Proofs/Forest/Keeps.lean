/-
What edits leave alone.

Most nodes have nothing to do with an edit.  `Keeps` names those that may have been touched; every
other node has the parent and the text that it had.  If all that lies beneath a touched node counts
as touched, then the others also lie within the same nodes as before.

A replacement edits new nodes and those in one subtree, and no others.  `Confined` says so, and each
edit that a replacement is made of keeps it.
-/
import TreeRules.Proofs.Forest.Edit
import TreeRules.Proofs.Forest.Tree

namespace TreeRules.Forest

variable {f g h : Forest} {a n p c t : NodeId} {touched touched' : NodeId → Prop}

/-- Every node but those touched has the parent and the text that it had. -/
structure Keeps (f g : Forest) (touched : NodeId → Prop) : Prop where
  /-- No node has gone. -/
  size_le : f.size ≤ g.size
  value : ∀ n, n < f.size → ¬ touched n → g.value n = f.value n
  parent : ∀ n, n < f.size → ¬ touched n → g.parent n = f.parent n

namespace Keeps

theorem refl (f : Forest) (touched : NodeId → Prop) : f.Keeps f touched where
  size_le := Nat.le_refl _
  value := by intro n _ _; rfl
  parent := by intro n _ _; rfl

/-- One edit after another: what the second touches must count as touched, if it was there from the
first. -/
theorem trans (hk : f.Keeps g touched) (hk' : g.Keeps h touched')
    (himp : ∀ n, n < f.size → touched' n → touched n) : f.Keeps h touched where
  size_le := Nat.le_trans hk.size_le hk'.size_le
  value := by
    intro n hn hnt
    have hnt' : ¬ touched' n := fun ht => hnt (himp n hn ht)
    exact (hk'.value n (Nat.lt_of_lt_of_le hn hk.size_le) hnt').trans (hk.value n hn hnt)
  parent := by
    intro n hn hnt
    have hnt' : ¬ touched' n := fun ht => hnt (himp n hn ht)
    exact (hk'.parent n (Nat.lt_of_lt_of_le hn hk.size_le) hnt').trans (hk.parent n hn hnt)

/-- **A node that is not touched lies within the same nodes as before.** -/
theorem within_iff (hk : f.Keeps g touched) (hf : f.WellFormed)
    (hdown : ∀ n p, f.parent n = some p → touched p → touched n) (hn : n < f.size)
    (hnt : ¬ touched n) : g.Within n a ↔ f.Within n a := by
  constructor
  · intro hw
    induction hw using Relation.ReflTransGen.head_induction_on with
    | refl => exact Within.refl a
    | @head n p hup _ ih =>
        have hp : f.parent n = some p := (hk.parent n hn hnt).symm.trans hup
        refine Within.of_parent hp (ih (hf.parent_lt_size hp) fun ht => ?_)
        exact hnt (hdown n p hp ht)
  · intro hw
    induction hw using Relation.ReflTransGen.head_induction_on with
    | refl => exact Within.refl a
    | @head n p hp _ ih =>
        refine Within.of_parent ((hk.parent n hn hnt).trans hp) ?_
        exact ih (hf.parent_lt_size hp) fun ht => hnt (hdown n p hp ht)

end Keeps

/-! ### The edits -/

theorem keeps_newNode (f : Forest) (value : String) :
    f.Keeps (f.newNode value).1 fun _ => False where
  size_le := Nat.le_of_lt (lt_size_newNode f value)
  value := by
    intro n hn _
    rw [value_newNode, if_neg (Nat.ne_of_lt hn)]
  parent := by
    intro n _ _
    exact parent_newNode f value n

theorem keeps_detach (f : Forest) (n : NodeId) : f.Keeps (f.detach n) (· = n) where
  size_le := Nat.le_of_eq (size_detach f n).symm
  value := by
    intro m _ _
    exact value_detach f n m
  parent := by
    intro m _ hmn
    rw [parent_detach, if_neg hmn]

theorem keeps_insertChild (hf : f.WellFormed) (hc : c < f.size) (p : NodeId) (index : Nat) :
    f.Keeps (f.insertChild p index c) (· = c) where
  size_le := Nat.le_of_eq (size_insertChild f p index c).symm
  value := by
    intro m _ _
    exact value_insertChild f p index c m
  parent := by
    intro m _ hmc
    by_cases hpc : f.Within p c
    · rw [insertChild_of_within hf hpc]
    · rw [parent_insertChild hf hc hpc, if_neg hmc]

/-- A forest grows well: it stays well formed, and no node of before is touched. -/
structure Grows (f g : Forest) : Prop where
  wellFormed : g.WellFormed
  keeps : f.Keeps g fun _ => False

theorem Grows.refl (hf : f.WellFormed) : f.Grows f := ⟨hf, Keeps.refl f _⟩

theorem Grows.trans (hg : f.Grows g) (hg' : g.Grows h) : f.Grows h :=
  ⟨hg'.wellFormed, hg.keeps.trans hg'.keeps fun _ _ hfalse => hfalse⟩

/-- What is not about nodes makes no difference. -/
theorem WellFormed.grows_of_nodes_eq (hf : f.WellFormed) (h : g.nodes = f.nodes) :
    f.Grows g := by
  have hparent : ∀ n, g.parent n = f.parent n := by
    intro n
    rw [parent, parent, h]
  have hchildren : ∀ n, g.children n = f.children n := by
    intro n
    rw [children, children, h]
  have hvalue : ∀ n, g.value n = f.value n := by
    intro n
    rw [value, value, h]
  have hsize : f.size = g.size := by
    rw [size, size, h]
  exact ⟨hf.congr hparent hchildren, Nat.le_of_eq hsize, fun n _ _ => hvalue n, fun n _ _ => hparent n⟩

theorem WellFormed.tree_of_nodes_eq (hf : f.WellFormed) (hnodes : g.nodes = f.nodes) (n : NodeId) :
    g.tree n = f.tree n := by
  refine hf.tree_congr (hf.grows_of_nodes_eq hnodes).wellFormed n (fun x _ => ?_) fun x _ => ?_
  · rw [value, value, hnodes]
  · rw [children, children, hnodes]

theorem WellFormed.grows_newNode (hf : f.WellFormed) (value : String) :
    f.Grows (f.newNode value).1 :=
  ⟨hf.newNode value, keeps_newNode f value⟩

/-- Putting a new node in place touches no node of before. -/
theorem Grows.pushChild (hg : f.Grows g) (hp : p < g.size) (hc : c < g.size) (hnew : f.size ≤ c) :
    f.Grows (g.pushChild p c) where
  wellFormed := hg.wellFormed.insertChild hc hp _
  keeps := by
    have hk : g.Keeps (g.pushChild p c) (· = c) := keeps_insertChild hg.wellFormed hc p _
    refine hg.keeps.trans hk ?_
    rintro n hn rfl
    exact Nat.not_lt.mpr hnew hn

theorem plant_snd (f : Forest) (tree : ValueTree) : (f.plant tree).2 = f.size := by
  cases tree with
  | node value trees => rw [plant]; rfl

mutual

theorem grows_plant : ∀ (tree : ValueTree) {f : Forest}, f.WellFormed →
    f.Grows (f.plant tree).1 ∧ f.size < (f.plant tree).1.size
  | .node value trees, f, hf => by
      have hnew := hf.grows_newNode value
      have hroot := lt_size_newNode f value
      have hbeneath := grows_plantBeneath trees hnew.wellFormed hroot
      rw [plant]
      exact ⟨hnew.trans hbeneath, Nat.lt_of_lt_of_le hroot hbeneath.keeps.size_le⟩

theorem grows_plantBeneath : ∀ (trees : List ValueTree) {f : Forest} {n : NodeId},
    f.WellFormed → n < f.size → f.Grows (f.plantBeneath n trees)
  | [], f, n, hf, _ => by
      rw [plantBeneath]
      exact Grows.refl hf
  | tree :: trees, f, n, hf, hn => by
      obtain ⟨hplant, hlt⟩ := grows_plant tree hf
      have hpush : f.Grows ((f.plant tree).1.pushChild n (f.plant tree).2) := by
        refine hplant.pushChild (Nat.lt_trans hn hlt) ?_ ?_
        · rwa [plant_snd]
        · exact Nat.le_of_eq (plant_snd f tree).symm
      rw [plantBeneath]
      exact hpush.trans (grows_plantBeneath trees hpush.wellFormed
        (Nat.lt_of_lt_of_le hn hpush.keeps.size_le))

end

/-- **New nodes for a value tree keep a forest well formed.** -/
theorem WellFormed.plant (hf : f.WellFormed) (tree : ValueTree) : (f.plant tree).1.WellFormed :=
  (grows_plant tree hf).1.wellFormed

theorem wellFormed_ofTree (tree : ValueTree) : (Document.ofTree tree).forest.WellFormed :=
  wellFormed_empty.plant tree

/-! ### Edits in one subtree -/

/-- The second forest comes of the first by edits of new nodes and of those within `t`. -/
structure Confined (f g : Forest) (t : NodeId) : Prop where
  wellFormed : g.WellFormed
  keeps : f.Keeps g (f.Within · t)

/-- A node that such edits may touch: a new one, or one within `t`. -/
structure Free (f g : Forest) (t n : NodeId) : Prop where
  lt_size : n < g.size
  within : n < f.size → f.Within n t

namespace Confined

theorem refl (hf : f.WellFormed) (t : NodeId) : f.Confined f t := ⟨hf, Keeps.refl f _⟩

/-- What comes to lie within `t` may be touched. -/
theorem free_of_within (hg : f.Confined g t) (hf : f.WellFormed) (ht : t < f.size)
    (hn : g.Within n t) : f.Free g t n where
  lt_size := by
    rcases within_cases hn with rfl | ⟨p, hp, -⟩
    · exact Nat.lt_of_lt_of_le ht hg.keeps.size_le
    · exact lt_size_of_parent hp
  within := by
    intro hlt
    by_contra hnt
    exact hnt ((hg.keeps.within_iff hf (fun _ _ => Within.of_parent) hlt hnt).mp hn)

theorem grow (hg : f.Confined g t) (hgrow : g.Grows h) : f.Confined h t where
  wellFormed := hgrow.wellFormed
  keeps := hg.keeps.trans hgrow.keeps fun _ _ hfalse => hfalse.elim

/-- An edit that touches one node, which may be touched. -/
theorem touch (hg : f.Confined g t) (hn : f.Free g t n) (hh : h.WellFormed)
    (hk : g.Keeps h (· = n)) : f.Confined h t where
  wellFormed := hh
  keeps := by
    refine hg.keeps.trans hk ?_
    rintro m hm rfl
    exact hn.within hm

theorem detach (hg : f.Confined g t) (hn : f.Free g t n) : f.Confined (g.detach n) t :=
  hg.touch hn (hg.wellFormed.detach n) (keeps_detach g n)

theorem insertChild (hg : f.Confined g t) (hp : p < g.size) (hc : f.Free g t c) (index : Nat) :
    f.Confined (g.insertChild p index c) t :=
  hg.touch hc (hg.wellFormed.insertChild hc.lt_size hp index)
    (keeps_insertChild hg.wellFormed hc.lt_size p index)

end Confined

theorem Free.mono (hn : f.Free g t n) (hle : g.size ≤ h.size) : f.Free h t n :=
  ⟨Nat.lt_of_lt_of_le hn.lt_size hle, hn.within⟩

/-- A new node may be touched. -/
theorem Free.of_new (hlt : n < g.size) (hnew : f.size ≤ n) : f.Free g t n :=
  ⟨hlt, fun hn => absurd hn (Nat.not_lt.mpr hnew)⟩

end TreeRules.Forest
