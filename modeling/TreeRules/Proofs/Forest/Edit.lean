/-
What edits do to the places of nodes.

Each edit is told by the parent, the children and the text that every node has afterwards, and from
that it is shown to keep a forest well formed.
-/
import Mathlib.Data.List.Perm.Basic
import TreeRules.Proofs.Forest.WellFormed

namespace TreeRules.Forest

variable {f g h : Forest} {a b n m p c : NodeId} {value : String}

/-! ### One node changed -/

theorem getElem?_modify (f : Forest) (n m : NodeId) (change : Node → Node) :
    (f.modify n change).nodes[m]? = if n = m then f.nodes[m]?.map change else f.nodes[m]? :=
  Array.getElem?_modify

@[simp] theorem size_modify (f : Forest) (n : NodeId) (change : Node → Node) :
    (f.modify n change).size = f.size :=
  Array.size_modify

theorem value_modify {change : Node → Node} (h : ∀ node, (change node).value = node.value)
    (f : Forest) (n m : NodeId) : (f.modify n change).value m = f.value m := by
  unfold value
  rw [getElem?_modify]
  by_cases hnm : n = m
  · rw [if_pos hnm]
    cases f.nodes[m]? with
    | none => rfl
    | some node => exact h node
  · rw [if_neg hnm]

theorem parent_modify {change : Node → Node} (h : ∀ node, (change node).parent = node.parent)
    (f : Forest) (n m : NodeId) : (f.modify n change).parent m = f.parent m := by
  unfold parent
  rw [getElem?_modify]
  by_cases hnm : n = m
  · rw [if_pos hnm]
    cases f.nodes[m]? with
    | none => rfl
    | some node => exact h node
  · rw [if_neg hnm]

theorem children_modify {change : Node → Node}
    (h : ∀ node, (change node).children = node.children) (f : Forest) (n m : NodeId) :
    (f.modify n change).children m = f.children m := by
  unfold children
  rw [getElem?_modify]
  by_cases hnm : n = m
  · rw [if_pos hnm]
    cases f.nodes[m]? with
    | none => rfl
    | some node => exact h node
  · rw [if_neg hnm]

@[simp] theorem value_setParent (f : Forest) (n : NodeId) (p : Option NodeId) (m : NodeId) :
    (f.setParent n p).value m = f.value m := by
  refine value_modify ?_ f n m
  intro node
  rfl

@[simp] theorem children_setParent (f : Forest) (n : NodeId) (p : Option NodeId) (m : NodeId) :
    (f.setParent n p).children m = f.children m := by
  refine children_modify ?_ f n m
  intro node
  rfl

@[simp] theorem size_setParent (f : Forest) (n : NodeId) (p : Option NodeId) :
    (f.setParent n p).size = f.size :=
  size_modify f n _

theorem parent_setParent (hn : n < f.size) (p : Option NodeId) (m : NodeId) :
    (f.setParent n p).parent m = if m = n then p else f.parent m := by
  unfold parent
  rw [setParent, getElem?_modify]
  by_cases hmn : m = n
  · subst hmn
    rw [if_pos rfl, if_pos rfl, Array.getElem?_eq_getElem hn]
    rfl
  · rw [if_neg (Ne.symm hmn), if_neg hmn]

@[simp] theorem value_modifyChildren (f : Forest) (n : NodeId)
    (change : List NodeId → List NodeId) (m : NodeId) :
    (f.modifyChildren n change).value m = f.value m := by
  refine value_modify ?_ f n m
  intro node
  rfl

@[simp] theorem parent_modifyChildren (f : Forest) (n : NodeId)
    (change : List NodeId → List NodeId) (m : NodeId) :
    (f.modifyChildren n change).parent m = f.parent m := by
  refine parent_modify ?_ f n m
  intro node
  rfl

@[simp] theorem size_modifyChildren (f : Forest) (n : NodeId)
    (change : List NodeId → List NodeId) : (f.modifyChildren n change).size = f.size :=
  size_modify f n _

theorem children_modifyChildren (hn : n < f.size) (change : List NodeId → List NodeId)
    (m : NodeId) :
    (f.modifyChildren n change).children m =
      if m = n then change (f.children n) else f.children m := by
  unfold children
  rw [modifyChildren, getElem?_modify]
  by_cases hmn : m = n
  · subst hmn
    rw [if_pos rfl, if_pos rfl, Array.getElem?_eq_getElem hn]
    rfl
  · rw [if_neg (Ne.symm hmn), if_neg hmn]

/-! ### A new node -/

@[simp] theorem size_newNode (f : Forest) (value : String) :
    (f.newNode value).1.size = f.size + 1 :=
  Array.size_push _

theorem lt_size_newNode (f : Forest) (value : String) : f.size < (f.newNode value).1.size := by
  rw [size_newNode]
  exact Nat.lt_succ_self _

theorem getElem?_newNode (f : Forest) (value : String) (m : NodeId) :
    (f.newNode value).1.nodes[m]? = if m = f.size then some { value } else f.nodes[m]? := by
  rw [newNode, Array.getElem?_push]
  rfl

theorem parent_newNode (f : Forest) (value : String) (m : NodeId) :
    (f.newNode value).1.parent m = f.parent m := by
  unfold parent
  rw [getElem?_newNode]
  by_cases hm : m = f.size
  · rw [if_pos hm, Array.getElem?_eq_none (Nat.le_of_eq hm.symm)]
    rfl
  · rw [if_neg hm]

theorem parent_newNode_self (f : Forest) (value : String) :
    (f.newNode value).1.parent f.size = none := by
  rw [parent_newNode]
  simp [parent, size]

/-- A new node is above no other. -/
theorem within_newNode (f : Forest) (value : String) (n a : NodeId) :
    (f.newNode value).1.Within n a ↔ f.Within n a := by
  have hup : (f.newNode value).1.Up = f.Up := by
    funext x y
    rw [Up, Up, parent_newNode]
  rw [Within, Within, hup]

theorem children_newNode (f : Forest) (value : String) (m : NodeId) :
    (f.newNode value).1.children m = f.children m := by
  unfold children
  rw [getElem?_newNode]
  by_cases hm : m = f.size
  · rw [if_pos hm, Array.getElem?_eq_none (Nat.le_of_eq hm.symm)]
  · rw [if_neg hm]

theorem value_newNode (f : Forest) (text : String) (m : NodeId) :
    (f.newNode text).1.value m = if m = f.size then text else f.value m := by
  unfold value
  rw [getElem?_newNode]
  by_cases hm : m = f.size
  · rw [if_pos hm, if_pos hm]
  · rw [if_neg hm, if_neg hm]

/-! ### Well-formedness is about places only -/

/-- A forest in which every node has the parent and the children that it has in a well-formed one is
well formed. -/
theorem WellFormed.congr (hf : f.WellFormed) (hparent : ∀ n, g.parent n = f.parent n)
    (hchildren : ∀ n, g.children n = f.children n) : g.WellFormed where
  parent_iff := by
    intro c p
    rw [hparent, hchildren]
    exact hf.parent_iff c p
  nodup := by
    intro p
    rw [hchildren]
    exact hf.nodup p
  acyclic := by
    intro n hn
    exact hf.acyclic n (Relation.TransGen.mono (fun x _ hup => (hparent x).symm.trans hup) n n hn)

theorem wellFormed_empty : ({} : Forest).WellFormed where
  parent_iff := by
    intro c p
    simp [parent, children]
  nodup := by
    intro p
    simp [children]
  acyclic := by
    intro n hn
    obtain ⟨p, hp, -⟩ := Relation.TransGen.head'_iff.mp hn
    exact absurd (lt_size_of_parent hp) (Nat.not_lt_zero n)

theorem WellFormed.newNode (hf : f.WellFormed) (value : String) :
    (f.newNode value).1.WellFormed :=
  hf.congr (parent_newNode f value) (children_newNode f value)

/-! ### Taking a node out -/

theorem detach_of_parent_none (hn : f.parent n = none) : f.detach n = f := by
  rw [detach, hn]

@[simp] theorem size_detach (f : Forest) (n : NodeId) : (f.detach n).size = f.size := by
  unfold detach
  split
  · rfl
  · rw [size_setParent, size_modifyChildren]

@[simp] theorem value_detach (f : Forest) (n m : NodeId) :
    (f.detach n).value m = f.value m := by
  unfold detach
  split
  · rfl
  · rw [value_setParent, value_modifyChildren]

theorem parent_detach (f : Forest) (n m : NodeId) :
    (f.detach n).parent m = if m = n then none else f.parent m := by
  cases hp : f.parent n with
  | none =>
      rw [detach_of_parent_none hp]
      by_cases hmn : m = n
      · rw [if_pos hmn, hmn, hp]
      · rw [if_neg hmn]
  | some p =>
      have hn : n < (f.modifyChildren p (·.filter (· != n))).size := by
        rw [size_modifyChildren]
        exact lt_size_of_parent hp
      rw [detach, hp]
      show ((f.modifyChildren p (·.filter (· != n))).setParent n none).parent m = _
      rw [parent_setParent hn, parent_modifyChildren]

theorem children_detach (hf : f.WellFormed) (n m : NodeId) :
    (f.detach n).children m = (f.children m).filter (· != n) := by
  -- a node that is not the parent does not have the child in the first place
  have hother : f.parent n ≠ some m → (f.children m).filter (· != n) = f.children m := by
    intro hne
    refine List.filter_eq_self.mpr fun c hc => ?_
    rw [bne_iff_ne]
    rintro rfl
    exact hne ((hf.parent_iff c m).mpr hc)
  cases hp : f.parent n with
  | none =>
      rw [detach_of_parent_none hp, hother (by rw [hp]; simp)]
  | some p =>
      rw [detach, hp]
      show ((f.modifyChildren p (·.filter (· != n))).setParent n none).children m = _
      rw [children_setParent, children_modifyChildren (hf.parent_lt_size hp)]
      by_cases hmp : m = p
      · rw [if_pos hmp, hmp]
      · rw [if_neg hmp, hother (by rw [hp]; exact fun hc => hmp (Option.some.inj hc).symm)]

theorem up_of_up_detach (hup : (f.detach n).Up a b) : f.Up a b := by
  rw [Up, parent_detach] at hup
  split at hup
  · exact absurd hup (by simp)
  · exact hup

/-- **Taking a node out keeps a forest well formed.** -/
theorem WellFormed.detach (hf : f.WellFormed) (n : NodeId) : (f.detach n).WellFormed where
  parent_iff := by
    intro c p
    rw [parent_detach, children_detach hf, List.mem_filter, bne_iff_ne]
    by_cases hcn : c = n
    · rw [if_pos hcn]
      simp [hcn]
    · rw [if_neg hcn, hf.parent_iff]
      simp [hcn]
  nodup := by
    intro p
    rw [children_detach hf]
    exact (hf.nodup p).filter _
  acyclic := by
    intro m hm
    exact hf.acyclic m (Relation.TransGen.mono (fun _ _ => up_of_up_detach) m m hm)

/-! ### Moving a node -/

theorem insertChild_of_within (hf : f.WellFormed) (hp : f.Within p c) (index : Nat) :
    f.insertChild p index c = f := by
  rw [insertChild, if_pos (hf.encloses_iff.mpr hp)]

theorem insertChild_of_not_within (hf : f.WellFormed) (hp : ¬ f.Within p c) (index : Nat) :
    f.insertChild p index c =
      ((f.detach c).setParent c (some p)).modifyChildren p fun children =>
        children.insertIdx (min index children.length) c := by
  rw [insertChild, if_neg (fun hc => hp (hf.encloses_iff.mp hc))]

@[simp] theorem size_insertChild (f : Forest) (p : NodeId) (index : Nat) (c : NodeId) :
    (f.insertChild p index c).size = f.size := by
  unfold insertChild
  split
  · rfl
  · rw [size_modifyChildren, size_setParent, size_detach]

@[simp] theorem value_insertChild (f : Forest) (p : NodeId) (index : Nat) (c m : NodeId) :
    (f.insertChild p index c).value m = f.value m := by
  unfold insertChild
  split
  · rfl
  · rw [value_modifyChildren, value_setParent, value_detach]

theorem parent_insertChild (hf : f.WellFormed) (hc : c < f.size) (hp : ¬ f.Within p c)
    (index : Nat) (m : NodeId) :
    (f.insertChild p index c).parent m = if m = c then some p else f.parent m := by
  rw [insertChild_of_not_within hf hp, parent_modifyChildren,
    parent_setParent (by rwa [size_detach]), parent_detach]
  by_cases hmc : m = c
  · rw [if_pos hmc, if_pos hmc]
  · rw [if_neg hmc, if_neg hmc, if_neg hmc]

theorem children_insertChild (hf : f.WellFormed) (hp : ¬ f.Within p c) (hlt : p < f.size)
    (index : Nat) (m : NodeId) :
    (f.insertChild p index c).children m =
      if m = p then
        ((f.children p).filter (· != c)).insertIdx
          (min index ((f.children p).filter (· != c)).length) c
      else (f.children m).filter (· != c) := by
  rw [insertChild_of_not_within hf hp, children_modifyChildren (by simpa using hlt),
    children_setParent, children_setParent, children_detach hf, children_detach hf]

theorem mem_insertIdx_min {x : NodeId} (l : List NodeId) (index : Nat) :
    x ∈ l.insertIdx (min index l.length) c ↔ x = c ∨ x ∈ l :=
  List.mem_insertIdx (Nat.min_le_right _ _)

/-- Where one node has got another parent, the ways up are those of before, or go up to the node,
and on from its parent. -/
theorem beneath_of_moved (hother : ∀ n, n ≠ c → g.parent n = f.parent n)
    (hmoved : g.parent c = some p) (hb : g.Beneath a b) :
    f.Beneath a b ∨ f.Within a c ∧ f.Within p b := by
  induction hb with
  | @single b hup =>
      by_cases hac : a = c
      · subst hac
        obtain rfl := Option.some.inj (hmoved.symm.trans hup)
        exact Or.inr ⟨Within.refl a, Within.refl p⟩
      · exact Or.inl (Relation.TransGen.single ((hother a hac).symm.trans hup))
  | @tail b d _ hup ih =>
      by_cases hbc : b = c
      · subst hbc
        obtain rfl := Option.some.inj (hmoved.symm.trans hup)
        refine Or.inr ⟨?_, Within.refl p⟩
        rcases ih with hb | ⟨hac, -⟩
        · exact hb.to_reflTransGen
        · exact hac
      · have hup' : f.Up b d := (hother b hbc).symm.trans hup
        rcases ih with hb | ⟨hac, hpb⟩
        · exact Or.inl (hb.tail hup')
        · exact Or.inr ⟨hac, hpb.tail hup'⟩

/-- **Moving a node keeps a forest well formed.** -/
theorem WellFormed.insertChild (hf : f.WellFormed) (hc : c < f.size) (hp : p < f.size)
    (index : Nat) : (f.insertChild p index c).WellFormed := by
  by_cases hpc : f.Within p c
  · rw [insertChild_of_within hf hpc]
    exact hf
  · have hparent := parent_insertChild hf hc hpc index
    have hchildren := children_insertChild hf hpc hp index
    refine ⟨?_, ?_, ?_⟩
    · intro n q
      rw [hparent, hchildren]
      by_cases hqp : q = p
      · rw [if_pos hqp, mem_insertIdx_min, List.mem_filter, bne_iff_ne, hqp]
        by_cases hnc : n = c
        · simp [hnc]
        · rw [if_neg hnc, hf.parent_iff]
          simp [hnc]
      · rw [if_neg hqp, List.mem_filter, bne_iff_ne]
        by_cases hnc : n = c
        · simp [hnc, Ne.symm hqp]
        · rw [if_neg hnc, hf.parent_iff]
          simp [hnc]
    · intro q
      rw [hchildren]
      have hfilter : ((f.children q).filter (· != c)).Nodup := (hf.nodup q).filter _
      split
      · rename_i hqp
        subst hqp
        rw [(List.perm_insertIdx _ _ (Nat.min_le_right _ _)).nodup_iff]
        refine List.nodup_cons.mpr ⟨?_, hfilter⟩
        rw [List.mem_filter, bne_iff_ne]
        exact fun hmem => hmem.2 rfl
      · exact hfilter
    · intro n hn
      have hother : ∀ n, n ≠ c → (f.insertChild p index c).parent n = f.parent n := by
        intro n hnc
        rw [hparent, if_neg hnc]
      have hmoved : (f.insertChild p index c).parent c = some p := by
        rw [hparent, if_pos rfl]
      rcases beneath_of_moved hother hmoved hn with hb | ⟨hnc, hpn⟩
      · exact hf.acyclic n hb
      · exact hpc (hpn.trans hnc)

end TreeRules.Forest
