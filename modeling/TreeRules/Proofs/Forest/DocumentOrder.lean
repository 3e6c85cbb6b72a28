/-
Document order.

A walk down keeps a stack of nodes: it takes the first one off and puts its children in its place.  A
walk up goes on at the parent of the node that it has come to.  Neither has a bound, so in a forest
where nodes lay above themselves there might be no end.  In a well-formed forest both end, and have
come to the nodes that `preorder` and `ancestors` list.  A node is followed down to its leaves before
what waits beneath it on the stack, so the induction is down the forest, for any stack.

From the order in which the children are put on the stack it follows that a node comes before all
that lies beneath it, and what lies within a child before what lies within a later one.  As both
walks come to exactly the nodes that chains of parents tie to each other, asking upwards whether a
node is in a tree is the same as looking for it downwards.
-/
import Mathlib.Data.List.Flatten
import TreeRules.Proofs.Forest.Keeps
import TreeRules.Proofs.Forest.Preorder

namespace TreeRules

namespace Forest

variable {f : Forest} {a b c n p x y : NodeId}

/-- Goes down from the nodes on a stack to all that lies beneath them. -/
def walkDown (f : Forest) : List NodeId → Option (List NodeId)
  | [] => some []
  | n :: pending => do
    let later ← f |>.walkDown (f.children n ++ pending)
    return n :: later
partial_fixpoint

/-- Goes up from a node as long as there is a parent. -/
def walkUp (f : Forest) (n : NodeId) : Option (List NodeId) :=
  match f.parent n with
  | none => some [n]
  | some p => do
    let above ← f |>.walkUp p
    return n :: above
partial_fixpoint

/-- One node comes before another. -/
def Precedes (walk : List NodeId) (a b : NodeId) : Prop := [a, b].Sublist walk

instance (walk : List NodeId) (a b : NodeId) : Decidable (Precedes walk a b) :=
  inferInstanceAs (Decidable ([a, b].Sublist walk))

/-! ### Walks that end -/

namespace WellFormed

/-- **A node is followed down to its leaves, whatever waits beneath it.** -/
theorem walkDown_cons (hf : f.WellFormed) (n : NodeId) (pending : List NodeId) :
    f.walkDown (n :: pending) = (f.walkDown pending).map (f.preorder n ++ ·) := by
  induction n using hf.down_induction generalizing pending with
  | step n ih =>
      have hchildren : ∀ waiting : List NodeId, waiting ⊆ f.children n →
          f.walkDown (waiting ++ pending) =
            (f.walkDown pending).map (waiting.flatMap f.preorder ++ ·) := by
        intro waiting hwaiting
        induction waiting with
        | nil => simp
        | cons c waiting ihw =>
            obtain ⟨hc, hwaiting⟩ := List.cons_subset.mp hwaiting
            rw [List.cons_append, ih c hc, ihw hwaiting, Option.map_map]
            simp [Function.comp_def]
      rw [walkDown, hchildren _ (List.Subset.refl _), hf.preorder_eq]
      cases f.walkDown pending <;> rfl

/-- **The walk down ends**, with any nodes on the stack. -/
theorem walkDown_eq (hf : f.WellFormed) (pending : List NodeId) :
    f.walkDown pending = some (pending.flatMap f.preorder) := by
  induction pending with
  | nil => rw [walkDown, List.flatMap_nil]
  | cons n pending ih => rw [hf.walkDown_cons, ih, List.flatMap_cons, Option.map_some]

/-- **The walk up ends.** -/
theorem walkUp_eq (hf : f.WellFormed) (n : NodeId) : f.walkUp n = some (f.ancestors n) := by
  induction hk : (f.ancestors n).length generalizing n with
  | zero => exact absurd (length_ancestors_pos f n) (by omega)
  | succ k ih =>
      rw [walkUp]
      cases hp : f.parent n with
      | none => rw [ancestors_of_parent_none hp]
      | some p =>
          rw [hf.ancestors_of_parent hp, List.length_cons] at hk
          rw [hf.ancestors_of_parent hp]
          dsimp only
          rw [ih p (by omega)]
          rfl

/-! ### The order of a walk -/

/-- The walk from a node goes through the walks from the nodes within it. -/
theorem preorder_sublist (hf : f.WellFormed) (h : f.Within a b) :
    (f.preorder a).Sublist (f.preorder b) := by
  induction h with
  | refl => exact List.Sublist.refl _
  | @tail c p _ hp ih =>
      have hc : [c].Sublist (f.children p) :=
        List.singleton_sublist.mpr ((hf.parent_iff c p).mp hp)
      have hwalk := hc.flatMap f.preorder
      rw [List.flatMap_singleton] at hwalk
      rw [hf.preorder_eq p]
      exact (ih.trans hwalk).cons p

/-- **A node comes before all that lies beneath it.** -/
theorem precedes_of_beneath (hf : f.WellFormed) (h : f.Beneath n a) (ha : f.Within a b) :
    Precedes (f.preorder b) a n := by
  refine List.Sublist.trans ?_ (hf.preorder_sublist ha)
  have hn : n ∈ f.preorder a := hf.mem_preorder_iff.mpr h.to_reflTransGen
  rw [hf.preorder_eq, List.mem_cons] at hn
  rw [hf.preorder_eq, List.cons_sublist_cons, List.singleton_sublist]
  refine hn.resolve_left ?_
  rintro rfl
  exact hf.acyclic n h

/-- **What lies within a child comes before what lies within a later one.** -/
theorem precedes_of_siblings (hf : f.WellFormed) (hbc : Precedes (f.children p) b c)
    (hp : f.Within p a) (hx : f.Within x b) (hy : f.Within y c) :
    Precedes (f.preorder a) x y := by
  have hx' : [x].Sublist (f.preorder b) := List.singleton_sublist.mpr (hf.mem_preorder_iff.mpr hx)
  have hy' : [y].Sublist (f.preorder c) := List.singleton_sublist.mpr (hf.mem_preorder_iff.mpr hy)
  have hpair : [x, y].Sublist ([b, c].flatMap f.preorder) := by
    simpa using hx'.append hy'
  refine List.Sublist.trans ?_ (hf.preorder_sublist hp)
  rw [hf.preorder_eq]
  exact (hpair.trans (hbc.flatMap f.preorder)).cons p

end WellFormed

end Forest

/-- **Membership is the same upwards and downwards.**

In a well-formed forest, a document whose root has no parent is walked down to its end.  The walk
comes to each node of the document once and to no other, to a node before what lies beneath it, and
to what lies within a child before what lies within a later one.  The walk up from any node of the
forest ends as well.  That its topmost node is the root says exactly that the walk down comes to the
node, and that another node is among those above it, or is the node itself, that the walk down from
there does. -/
theorem Document.membership_agrees {d : Document} (hf : d.forest.WellFormed)
    (htop : d.forest.parent d.root = none) :
    (∀ a, d.forest.walkDown [a] = some (d.forest.preorder a)) ∧
    (∀ n, d.forest.walkUp n = some (d.forest.ancestors n)) ∧
    d.preorder.Nodup ∧
    (∀ n, n ∈ d.preorder ↔ d.forest.Within n d.root) ∧
    (∀ a n, d.forest.Within a d.root → d.forest.Beneath n a → Forest.Precedes d.preorder a n) ∧
    (∀ p b c, d.forest.Within p d.root → Forest.Precedes (d.forest.children p) b c →
      ∀ x y, d.forest.Within x b → d.forest.Within y c → Forest.Precedes d.preorder x y) ∧
    (∀ n, d.contains n = true ↔ n ∈ d.preorder) ∧
    (∀ a n, d.forest.encloses a n = true ↔ n ∈ d.forest.preorder a) := by
  refine ⟨fun a => ?_, hf.walkUp_eq, hf.nodup_preorder d.root, fun n => hf.mem_preorder_iff,
    fun a n ha hn => hf.precedes_of_beneath hn ha, fun p b c hp hbc x y hx hy =>
      hf.precedes_of_siblings hbc hp hx hy, fun n => ?_, fun a n => ?_⟩
  · rw [hf.walkDown_eq, List.flatMap_singleton]
  · have hcontains : d.contains n = true ↔ (d.forest.ancestors n).getLast? = some d.root :=
      beq_iff_eq
    rw [hcontains, hf.getLast?_ancestors_eq_some_iff htop]
    exact hf.mem_preorder_iff.symm
  · rw [hf.encloses_iff, hf.mem_preorder_iff]

/-- A document in which the node named last has been moved to the front, and one that lay beneath
another node has been taken out. -/
def Document.rearranged : Document :=
  let planted := Document.ofTree (.node "r" [.node "a" [.node "b" [], .node "c" []], .node "d" []])
  { forest := (planted.forest.insertChild 0 0 4).detach 2, root := 0 }

theorem Document.wellFormed_rearranged : rearranged.forest.WellFormed := by
  have hplanted := Forest.wellFormed_ofTree
    (.node "r" [.node "a" [.node "b" [], .node "c" []], .node "d" []])
  exact (hplanted.insertChild (c := 4) (p := 0) (by decide +kernel) (by decide +kernel) 0).detach 2

theorem Document.membership_agrees_rearranged :
    rearranged.forest.WellFormed ∧ rearranged.forest.parent rearranged.root = none ∧
      rearranged.preorder = [0, 4, 1, 3] ∧
      rearranged.forest.walkDown [0] = some [0, 4, 1, 3] ∧
      rearranged.forest.walkUp 3 = some [3, 1, 0] ∧
      Forest.Precedes rearranged.preorder 4 3 ∧
      rearranged.contains 3 = true ∧ rearranged.contains 2 = false ∧
      rearranged.forest.encloses 1 3 = true ∧ rearranged.forest.encloses 4 3 = false := by
  have hf := wellFormed_rearranged
  have htop : rearranged.forest.parent rearranged.root = none := by decide +kernel
  have hwalk : rearranged.preorder = [0, 4, 1, 3] := by decide +kernel
  have habove : rearranged.forest.ancestors 3 = [3, 1, 0] := by decide +kernel
  obtain ⟨hdown, hup, -, hmem, -, hsiblings, hcontains, hencloses⟩ := membership_agrees hf htop
  have hbelow : rearranged.forest.preorder 1 = [1, 3] := by decide +kernel
  have hmoved : rearranged.forest.preorder 4 = [4] := by decide +kernel
  have hwithin : rearranged.forest.Within 3 1 := hf.mem_preorder_iff.mp (by rw [hbelow]; simp)
  refine ⟨hf, htop, hwalk, ?_, ?_, ?_, ?_, ?_, ?_, ?_⟩
  · rw [hdown]
    exact congrArg some hwalk
  · rw [hup, habove]
  · refine hsiblings 0 4 1 (Forest.Within.refl 0) ?_ 4 3 (Forest.Within.refl 4) hwithin
    decide +kernel
  · rw [hcontains, hwalk]
    decide
  · rw [← Bool.not_eq_true, hcontains, hwalk]
    decide
  · rw [hencloses, hbelow]
    decide
  · rw [← Bool.not_eq_true, hencloses, hmoved]
    decide

end TreeRules
