/-
What holds of a forest that edits have built.

A node's place is recorded twice, and the walks up and down are bounded by the number of nodes.
`WellFormed` says that the two records agree and that no node lies above itself.  From that alone:

  * No chain of parents is longer than the forest has nodes, so the bounds are never reached:
    `ancestors` goes on to the top, and `preorder` down to the leaves.
  * A node is in the subtree of another exactly if the chain of its parents comes there.  That is
    what ties the walk down to the walk up.
-/
import Mathlib.Data.List.Perm.Subperm
import Mathlib.Logic.Relation
import TreeRules.Document

namespace TreeRules.Forest

variable {f : Forest} {a b c n p : NodeId}

/-- `p` is the parent of `n`. -/
def Up (f : Forest) (n p : NodeId) : Prop := f.parent n = some p

/-- `n` lies at or beneath `a`. -/
def Within (f : Forest) (n a : NodeId) : Prop := Relation.ReflTransGen f.Up n a

/-- `n` lies beneath `a`. -/
def Beneath (f : Forest) (n a : NodeId) : Prop := Relation.TransGen f.Up n a

/-- The two records of the nodes' places agree, and no node lies beneath itself. -/
structure WellFormed (f : Forest) : Prop where
  /-- A node is among the children of exactly the one that it has as its parent. -/
  parent_iff : ∀ c p, f.parent c = some p ↔ c ∈ f.children p
  /-- No node has a child twice. -/
  nodup : ∀ p, (f.children p).Nodup
  /-- Following parents never comes back. -/
  acyclic : ∀ n, ¬ f.Beneath n n

/-! ### Names in range -/

theorem lt_size_of_parent (h : f.parent n = some p) : n < f.size := by
  unfold parent at h
  obtain ⟨node, hnode, -⟩ := Option.bind_eq_some_iff.mp h
  exact (Array.getElem?_eq_some_iff.mp hnode).1

theorem lt_size_of_mem_children (h : c ∈ f.children p) : p < f.size := by
  unfold children at h
  split at h
  · rename_i node hnode
    exact (Array.getElem?_eq_some_iff.mp hnode).1
  · simp at h

namespace WellFormed

theorem lt_size_of_child (hf : f.WellFormed) (h : c ∈ f.children p) : c < f.size :=
  lt_size_of_parent ((hf.parent_iff c p).mpr h)

theorem parent_lt_size (hf : f.WellFormed) (h : f.parent n = some p) : p < f.size :=
  lt_size_of_mem_children ((hf.parent_iff n p).mp h)

end WellFormed

/-! ### Going up -/

theorem Within.refl (n : NodeId) : f.Within n n := Relation.ReflTransGen.refl

theorem Within.of_parent (h : f.parent n = some p) (hp : f.Within p a) : f.Within n a :=
  Relation.ReflTransGen.head h hp

theorem Within.trans (h : f.Within c b) (h' : f.Within b a) : f.Within c a :=
  Relation.ReflTransGen.trans h h'

/-- A node at or beneath `a` is `a` or has a parent that is at or beneath `a`. -/
theorem within_cases (h : f.Within n a) : n = a ∨ ∃ p, f.parent n = some p ∧ f.Within p a := by
  rcases Relation.ReflTransGen.cases_head h with heq | ⟨p, hp, hpa⟩
  · exact Or.inl heq
  · exact Or.inr ⟨p, hp, hpa⟩

theorem lt_size_of_within (ha : a < f.size) (hn : f.Within n a) : n < f.size := by
  rcases within_cases hn with rfl | ⟨p, hp, -⟩
  · exact ha
  · exact lt_size_of_parent hp

/-- A node without a parent lies only within itself. -/
theorem eq_of_within_of_parent_none (hn : f.parent n = none) (h : f.Within n a) : n = a := by
  rcases within_cases h with heq | ⟨p, hp, -⟩
  · exact heq
  · rw [hn] at hp
    exact absurd hp (by simp)

/-- With a node of a tree, its parent is in the tree. -/
theorem parent_within (ha : f.parent a = none) (hn : f.Within n a) (hp : f.parent n = some p) :
    f.Within p a := by
  rcases within_cases hn with rfl | ⟨q, hq, hqa⟩
  · rw [ha] at hp
    exact absurd hp (by simp)
  · exact Option.some.inj (hq.symm.trans hp) ▸ hqa

/-- Of two nodes that enclose a third, one encloses the other. -/
theorem within_total (ha : f.Within n a) (hb : f.Within n b) : f.Within a b ∨ f.Within b a := by
  refine Relation.ReflTransGen.total_of_right_unique ?_ ha hb
  intro x y z hy hz
  exact Option.some.inj ((show f.parent x = some y from hy).symm.trans hz)

theorem within_of_mem_ancestorsWithin (bound : Nat) :
    ∀ n, a ∈ f.ancestorsWithin bound n → f.Within n a := by
  induction bound with
  | zero => intro n h; simp [ancestorsWithin] at h
  | succ bound ih =>
      intro n h
      rw [ancestorsWithin, List.mem_cons] at h
      rcases h with rfl | h
      · exact Within.refl a
      · cases hp : f.parent n with
        | none => simp [hp] at h
        | some p =>
            rw [hp] at h
            exact Within.of_parent hp (ih p h)

/-- More room makes no difference once the chain has come to an end. -/
theorem ancestorsWithin_succ (bound : Nat) :
    ∀ n, (f.ancestorsWithin bound n).length < bound →
      f.ancestorsWithin (bound + 1) n = f.ancestorsWithin bound n := by
  induction bound with
  | zero => intro n h; omega
  | succ bound ih =>
      intro n h
      rw [ancestorsWithin] at h ⊢
      rw [ancestorsWithin]
      cases hp : f.parent n with
      | none => rfl
      | some p =>
          simp only [hp, List.length_cons] at h ⊢
          rw [ih p (by omega)]

theorem length_ancestorsWithin_bound (bound : Nat) :
    ∀ n, (f.ancestorsWithin bound n).length ≤ bound := by
  induction bound with
  | zero => intro n; simp [ancestorsWithin]
  | succ bound ih =>
      intro n
      rw [ancestorsWithin]
      cases hp : f.parent n with
      | none => simp
      | some p => simpa using ih p

theorem length_ancestors_le (f : Forest) (n : NodeId) : (f.ancestors n).length ≤ f.size + 1 :=
  length_ancestorsWithin_bound (f.size + 1) n

namespace WellFormed

theorem nodup_ancestorsWithin (hf : f.WellFormed) (bound : Nat) :
    ∀ n, (f.ancestorsWithin bound n).Nodup := by
  induction bound with
  | zero => intro n; simp [ancestorsWithin]
  | succ bound ih =>
      intro n
      rw [ancestorsWithin]
      cases hp : f.parent n with
      | none => simp
      | some p =>
          refine List.nodup_cons.mpr ⟨?_, ih p⟩
          intro hmem
          have hpn : f.Within p n := within_of_mem_ancestorsWithin bound p hmem
          exact hf.acyclic n (Relation.TransGen.head' hp hpn)

theorem lt_size_of_within (hf : f.WellFormed) (hn : n < f.size) (h : f.Within n a) :
    a < f.size := by
  induction h with
  | refl => exact hn
  | tail _ hp _ => exact hf.parent_lt_size hp

theorem length_ancestorsWithin_le (hf : f.WellFormed) (hn : n < f.size) (bound : Nat) :
    (f.ancestorsWithin bound n).length ≤ f.size := by
  have hsub : f.ancestorsWithin bound n ⊆ List.range f.size := by
    intro a ha
    rw [List.mem_range]
    exact hf.lt_size_of_within hn (within_of_mem_ancestorsWithin bound n ha)
  have := (List.subperm_of_subset (hf.nodup_ancestorsWithin bound n) hsub).length_le
  simpa using this

/-- **The chain upwards is followed to its end.** -/
theorem ancestors_of_parent (hf : f.WellFormed) (h : f.parent n = some p) :
    f.ancestors n = n :: f.ancestors p := by
  -- with `n` itself in front the chain has no more nodes than the forest, so room is left over
  have hle : (n :: f.ancestorsWithin f.size p).length ≤ f.size := by
    have := hf.length_ancestorsWithin_le (lt_size_of_parent h) (f.size + 1)
    rwa [ancestorsWithin, h] at this
  rw [List.length_cons] at hle
  unfold ancestors
  rw [ancestorsWithin, h, ancestorsWithin_succ f.size p hle]

end WellFormed

theorem ancestors_of_parent_none (h : f.parent n = none) : f.ancestors n = [n] := by
  unfold ancestors
  rw [ancestorsWithin, h]

theorem length_ancestors_pos (f : Forest) (n : NodeId) : 0 < (f.ancestors n).length := by
  unfold ancestors
  rw [ancestorsWithin]
  simp

namespace WellFormed

theorem mem_ancestors_iff (hf : f.WellFormed) : a ∈ f.ancestors n ↔ f.Within n a := by
  constructor
  · exact within_of_mem_ancestorsWithin _ n
  · intro h
    induction h using Relation.ReflTransGen.head_induction_on with
    | refl =>
        unfold ancestors
        rw [ancestorsWithin]
        exact List.mem_cons_self
    | head hp _ ih =>
        rw [hf.ancestors_of_parent hp]
        exact List.mem_cons_of_mem _ ih

theorem encloses_iff (hf : f.WellFormed) : f.encloses a n = true ↔ f.Within n a := by
  rw [encloses, List.contains_iff_mem]
  exact hf.mem_ancestors_iff

/-- The topmost node above a node is an ancestor that has no parent. -/
theorem getLast?_ancestors_eq_some_iff (hf : f.WellFormed) (ha : f.parent a = none) :
    (f.ancestors n).getLast? = some a ↔ f.Within n a := by
  constructor
  · intro h
    exact hf.mem_ancestors_iff.mp (List.mem_of_getLast? h)
  · intro h
    induction h using Relation.ReflTransGen.head_induction_on with
    | refl => rw [ancestors_of_parent_none ha]; rfl
    | head hp hpa ih =>
        rw [hf.ancestors_of_parent hp, List.getLast?_cons, ih]
        rfl

/-! ### Induction along the forest -/

/-- What holds of a node whenever it holds of its children holds of every node. -/
theorem down_induction (hf : f.WellFormed) {P : NodeId → Prop}
    (step : ∀ n, (∀ c ∈ f.children n, P c) → P n) : ∀ n, P n := by
  intro n
  induction hk : f.size + 1 - (f.ancestors n).length using Nat.strongRecOn
    generalizing n with
  | _ k ih =>
      refine step n fun c hc => ih (f.size + 1 - (f.ancestors c).length) ?_ c rfl
      have hc' := hf.ancestors_of_parent ((hf.parent_iff c n).mpr hc)
      have := length_ancestors_le f c
      rw [hc', List.length_cons] at this ⊢
      omega

/-! ### Going down -/

/-- More room makes no difference to the walk down. -/
theorem preorderWithin_eq (hf : f.WellFormed) (room : Nat) :
    ∀ n more, f.size + 1 < room + (f.ancestors n).length →
      f.preorderWithin (room + more) n = f.preorderWithin room n := by
  induction room with
  | zero =>
      intro n more h
      have := length_ancestors_le f n
      omega
  | succ room ih =>
      intro n more h
      rw [Nat.add_right_comm, preorderWithin, preorderWithin]
      congr 1
      refine List.flatMap_congr fun c hc => ih c more ?_
      rw [hf.ancestors_of_parent ((hf.parent_iff c n).mpr hc), List.length_cons]
      omega

/-- **The walk down comes to every leaf.** -/
theorem preorder_eq (hf : f.WellFormed) (n : NodeId) :
    f.preorder n = n :: (f.children n).flatMap f.preorder := by
  unfold preorder
  rw [preorderWithin]
  congr 1
  refine List.flatMap_congr fun c hc => ?_
  refine (hf.preorderWithin_eq f.size c 1 ?_).symm
  rw [hf.ancestors_of_parent ((hf.parent_iff c n).mpr hc), List.length_cons]
  have := length_ancestors_pos f n
  omega

theorem mem_preorder_iff (hf : f.WellFormed) : n ∈ f.preorder a ↔ f.Within n a := by
  induction a using hf.down_induction with
  | step a ih =>
      rw [hf.preorder_eq, List.mem_cons, List.mem_flatMap]
      constructor
      · rintro (rfl | ⟨c, hc, hn⟩)
        · exact Within.refl n
        · exact ((ih c hc).mp hn).tail ((hf.parent_iff c a).mpr hc)
      · intro h
        rcases Relation.ReflTransGen.cases_tail h with rfl | ⟨c, hnc, hca⟩
        · exact Or.inl rfl
        · have hc := (hf.parent_iff c a).mp hca
          exact Or.inr ⟨c, hc, (ih c hc).mpr hnc⟩

end WellFormed

end TreeRules.Forest
