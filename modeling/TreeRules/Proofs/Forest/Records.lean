/-
What is heard of a change.

A report about a node is delivered to the records that were added to the node.  Edits deliver
nothing, leave every node its records, and give a new node none.  So whatever has been edited in the
meantime, what a report delivers is told by the records of before.
-/
import TreeRules.Proofs.Forest.Edit
import TreeRules.Forest.Change

namespace TreeRules.Forest

variable {f g h : Forest} {n p c : NodeId} {kind : ChangeKind}

/-- What is delivered when a change of the node is reported. -/
def heard (f : Forest) (n : NodeId) (kind : ChangeKind) : List Delivery :=
  (f.observers n).map (⟨·, kind, n⟩)

/-- Every node has the records that it had, and nothing has been delivered. -/
structure Silent (f g : Forest) : Prop where
  observers : ∀ n, g.observers n = f.observers n
  deliveries : g.deliveries = f.deliveries

namespace Silent

theorem refl (f : Forest) : f.Silent f where
  observers := by intro n; rfl
  deliveries := rfl

theorem trans (hg : f.Silent g) (hh : g.Silent h) : f.Silent h where
  observers := by intro n; rw [hh.observers, hg.observers]
  deliveries := hh.deliveries.trans hg.deliveries

theorem heard (hg : f.Silent g) (n : NodeId) (kind : ChangeKind) :
    g.heard n kind = f.heard n kind := by
  rw [Forest.heard, Forest.heard, hg.observers]

end Silent

/-! ### Edits deliver nothing -/

theorem silent_modify {change : Node → Node} (h : ∀ node, (change node).observers = node.observers)
    (f : Forest) (n : NodeId) : f.Silent (f.modify n change) where
  observers := by
    intro m
    unfold observers
    rw [getElem?_modify]
    by_cases hnm : n = m
    · rw [if_pos hnm]
      cases f.nodes[m]? with
      | none => rfl
      | some node => exact h node
    · rw [if_neg hnm]
  deliveries := rfl

theorem silent_setParent (f : Forest) (n : NodeId) (p : Option NodeId) :
    f.Silent (f.setParent n p) := by
  refine silent_modify ?_ f n
  intro node
  rfl

theorem silent_modifyChildren (f : Forest) (n : NodeId) (change : List NodeId → List NodeId) :
    f.Silent (f.modifyChildren n change) := by
  refine silent_modify ?_ f n
  intro node
  rfl

theorem silent_newNode (f : Forest) (value : String) : f.Silent (f.newNode value).1 where
  observers := by
    intro m
    unfold observers
    rw [getElem?_newNode]
    by_cases hm : m = f.size
    · rw [if_pos hm, Array.getElem?_eq_none (Nat.le_of_eq hm.symm)]
    · rw [if_neg hm]
  deliveries := rfl

theorem silent_detach (f : Forest) (n : NodeId) : f.Silent (f.detach n) := by
  unfold detach
  split
  · exact Silent.refl f
  · exact (silent_modifyChildren f _ _).trans (silent_setParent _ n none)

theorem silent_insertChild (f : Forest) (p : NodeId) (index : Nat) (c : NodeId) :
    f.Silent (f.insertChild p index c) := by
  unfold insertChild
  split
  · exact Silent.refl f
  · exact ((silent_detach f c).trans (silent_setParent _ c _)).trans (silent_modifyChildren _ p _)

theorem silent_pushChildren (f : Forest) (p : NodeId) (children : List NodeId) :
    f.Silent (f.pushChildren p children) := by
  unfold pushChildren
  induction children generalizing f with
  | nil => exact Silent.refl f
  | cons c children ih => exact (silent_insertChild f p _ c).trans (ih _)

mutual

theorem silent_plant : ∀ (tree : ValueTree) (f : Forest), f.Silent (f.plant tree).1
  | .node value trees, f => by
      rw [plant]
      exact (silent_newNode f value).trans (silent_plantBeneath trees _ _)

theorem silent_plantBeneath : ∀ (trees : List ValueTree) (f : Forest) (n : NodeId),
    f.Silent (f.plantBeneath n trees)
  | [], f, n => by
      rw [plantBeneath]
      exact Silent.refl f
  | tree :: trees, f, n => by
      rw [plantBeneath]
      exact ((silent_plant tree f).trans (silent_insertChild _ n _ _)).trans
        (silent_plantBeneath trees _ n)

end

/-! ### Reports -/

theorem deliveries_notify (f : Forest) (n : NodeId) (kind : ChangeKind) :
    (f.notify n kind).deliveries.toList = f.deliveries.toList ++ f.heard n kind :=
  Array.toList_append

theorem heard_foldl_notify (ns : List NodeId) (f : Forest) (n : NodeId) (kind kind' : ChangeKind) :
    (ns.foldl (·.notify · kind) f).heard n kind' = f.heard n kind' := by
  induction ns generalizing f with
  | nil => rfl
  | cons m ns ih => exact ih (f.notify m kind)

theorem deliveries_foldl_notify (ns : List NodeId) (f : Forest) (kind : ChangeKind) :
    (ns.foldl (·.notify · kind) f).deliveries.toList =
      f.deliveries.toList ++ ns.flatMap (f.heard · kind) := by
  induction ns generalizing f with
  | nil => exact (List.append_nil _).symm
  | cons n ns ih =>
      rw [List.foldl_cons, ih, deliveries_notify, List.flatMap_cons, List.append_assoc]
      rfl

end TreeRules.Forest
