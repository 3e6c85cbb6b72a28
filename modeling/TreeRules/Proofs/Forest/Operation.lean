/-
Operations on nodes keep a forest well formed.

Moving and taking out are the two edits by which a node changes its place.  Putting a node in the
place of another is no third one: it comes to the same to move the node in front of the other and to
take that out.  Everything else is made of these, or does not touch places at all.
-/
import TreeRules.Proofs.Forest.Plant
import TreeRules.Proofs.Template.Instance
import TreeRules.ValueTree.Format

namespace TreeRules.Forest

variable {f g : Forest} {c n p old : NodeId} {children : List NodeId}

/-- A new node with these nodes as its children, which are moved there. -/
def newParent (f : Forest) (value : String) (children : List NodeId) : Forest × NodeId :=
  let (f, n) := f.newNode value
  (f.pushChildren n children, n)

/-- One operation on the nodes of a forest, and the forest that it leaves.  Nodes are given by names
that are good. -/
inductive Operation : Forest → Forest → Prop
  | newNode (f : Forest) (value : String) : Operation f (f.newNode value).1
  | newParent {f : Forest} {children : List NodeId} (value : String)
      (hchildren : ∀ c ∈ children, c < f.size) : Operation f (f.newParent value children).1
  | pushChild {f : Forest} {p c : NodeId} (hp : p < f.size) (hc : c < f.size) :
      Operation f (f.pushChild p c)
  | insertChild {f : Forest} {p c : NodeId} (hp : p < f.size) (index : Nat) (hc : c < f.size) :
      Operation f (f.insertChild p index c)
  | replaceChild {f : Forest} {c : NodeId} (p : NodeId) (index : Nat) (hc : c < f.size) :
      Operation f (f.replaceChild p index c).1
  | detach (f : Forest) (n : NodeId) : Operation f (f.detach n)
  | setValue (f : Forest) (n : NodeId) (value : String) : Operation f (f.setValue n value)
  | deepClone (f : Forest) (n : NodeId) : Operation f (f.deepClone n).1
  | load {tree : ValueTree} (f : Forest) (format : TextFormat) (text : String)
      (htree : format.read text = .ok tree) : Operation f (f.plant tree).1

/-- Operations one after another. -/
def Operations : Forest → Forest → Prop := Relation.ReflTransGen Operation

/-! ### Putting a node in the place of another -/

section Replace

variable {before after : List NodeId} {index : Nat}

/-- What `replaceChild` does when it does anything. -/
def exchange (f : Forest) (p old c : NodeId) : Forest :=
  (((f.detach c).modifyChildren p (·.replace old c)).setParent c (some p)).setParent old none

theorem replaceChild_of_none (h : (f.children p)[index]? = none) (c : NodeId) :
    f.replaceChild p index c = (f, none) := by
  rw [replaceChild, h]

theorem replaceChild_of_self (h : (f.children p)[index]? = some c) :
    f.replaceChild p index c = (f, some c) := by
  rw [replaceChild, h]
  exact if_pos rfl

theorem replaceChild_of_within (hf : f.WellFormed) (h : (f.children p)[index]? = some old)
    (hne : old ≠ c) (hin : f.Within p c) : f.replaceChild p index c = (f, none) := by
  rw [replaceChild, h]
  dsimp only
  rw [if_neg hne, if_pos (hf.encloses_iff.mpr hin)]

/-- The old child is still there when the new one has been taken out of where it stood. -/
theorem replaceChild_of_not_within (hf : f.WellFormed) (h : (f.children p)[index]? = some old)
    (hne : old ≠ c) (hout : ¬ f.Within p c) :
    f.replaceChild p index c = (f.exchange p old c, some old) := by
  have hleft : ((f.detach c).children p).contains old = true := by
    rw [List.contains_iff_mem, children_detach hf, List.mem_filter, bne_iff_ne]
    exact ⟨List.mem_of_getElem? h, hne⟩
  rw [replaceChild, h]
  dsimp only
  rw [if_neg hne, if_neg (mt hf.encloses_iff.mp hout), if_pos hleft]
  rfl

variable (hf : f.WellFormed) (hc : c < f.size) (hold : f.parent old = some p) (hne : old ≠ c)
  (hout : ¬ f.Within p c) (hsplit : (f.children p).filter (· != c) = before ++ old :: after)

include hf hsplit in
/-- The old child is among the others only once. -/
theorem WellFormed.not_mem_around : old ∉ before ∧ old ∉ after := by
  have hnodup : (before ++ old :: after).Nodup := hsplit ▸ (hf.nodup p).filter _
  rw [List.nodup_append, List.nodup_cons] at hnodup
  obtain ⟨-, ⟨hafter, -⟩, hbefore⟩ := hnodup
  exact ⟨fun hmem => hbefore old hmem old List.mem_cons_self rfl, hafter⟩

include hc hold in
theorem parent_exchange (n : NodeId) :
    (f.exchange p old c).parent n =
      if n = old then none else if n = c then some p else f.parent n := by
  rw [exchange, parent_setParent (by simpa using lt_size_of_parent hold),
    parent_setParent (by simpa using hc), parent_modifyChildren, parent_detach]
  by_cases hn : n = c
  · rw [if_pos hn, if_pos hn]
  · rw [if_neg hn, if_neg hn, if_neg hn]

include hf hold hsplit in
theorem children_exchange (n : NodeId) :
    (f.exchange p old c).children n =
      if n = p then before ++ c :: after else (f.children n).filter (· != c) := by
  have hp : p < f.size := hf.parent_lt_size hold
  have hbefore := (hf.not_mem_around hsplit).1
  rw [exchange, children_setParent, children_setParent,
    children_modifyChildren (by simpa using hp), children_detach hf, children_detach hf]
  by_cases hn : n = p
  · rw [if_pos hn, if_pos hn, hsplit, List.replace_append_right hbefore, List.replace_cons_self]
  · rw [if_neg hn, if_neg hn]

include hf hc hold hout in
theorem parent_exchange_eq_detach (n : NodeId) :
    (f.exchange p old c).parent n = ((f.insertChild p before.length c).detach old).parent n := by
  rw [parent_exchange hc hold, parent_detach, parent_insertChild hf hc hout]

include hf hc hold hne hout hsplit in
theorem children_exchange_eq_detach (n : NodeId) :
    (f.exchange p old c).children n =
      ((f.insertChild p before.length c).detach old).children n := by
  have hp : p < f.size := hf.parent_lt_size hold
  obtain ⟨hbefore, hafter⟩ := hf.not_mem_around hsplit
  rw [children_exchange hf hold hsplit, children_detach (hf.insertChild hc hp _),
    children_insertChild hf hout hp]
  by_cases hn : n = p
  · rw [if_pos hn, if_pos hn, hsplit, Nat.min_eq_left (by simp), insertIdx_length_append,
      List.filter_append, filter_ne_of_not_mem hbefore]
    simp [Ne.symm hne, filter_ne_of_not_mem hafter]
  · rw [if_neg hn, if_neg hn]
    refine (filter_ne_of_not_mem fun hmem => hn ?_).symm
    have hparent := (hf.parent_iff old n).mpr (List.mem_filter.mp hmem).1
    exact Option.some.inj (hparent.symm.trans hold)

include hf hc hold hne hout in
theorem WellFormed.exchange : (f.exchange p old c).WellFormed := by
  have hleft : old ∈ (f.children p).filter (· != c) := by
    rw [List.mem_filter, bne_iff_ne]
    exact ⟨(hf.parent_iff old p).mp hold, hne⟩
  obtain ⟨before, after, hsplit⟩ := List.append_of_mem hleft
  exact ((hf.insertChild hc (hf.parent_lt_size hold) before.length).detach old).congr
    (parent_exchange_eq_detach hf hc hold hout)
    (children_exchange_eq_detach hf hc hold hne hout hsplit)

end Replace

/-- **Putting a node in the place of another keeps a forest well formed.** -/
theorem WellFormed.replaceChild (hf : f.WellFormed) (hc : c < f.size) (p : NodeId) (index : Nat) :
    (f.replaceChild p index c).1.WellFormed := by
  cases hat : (f.children p)[index]? with
  | none =>
      rw [replaceChild_of_none hat]
      exact hf
  | some old =>
      by_cases hne : old = c
      · rw [replaceChild_of_self (hne ▸ hat)]
        exact hf
      · by_cases hin : f.Within p c
        · rw [replaceChild_of_within hf hat hne hin]
          exact hf
        · rw [replaceChild_of_not_within hf hat hne hin]
          exact hf.exchange hc ((hf.parent_iff old p).mpr (List.mem_of_getElem? hat)) hne hin

theorem size_replaceChild (f : Forest) (p : NodeId) (index : Nat) (c : NodeId) :
    (f.replaceChild p index c).1.size = f.size := by
  unfold Forest.replaceChild
  cases (f.children p)[index]? with
  | none => rfl
  | some old =>
      dsimp only
      split
      · rfl
      · split
        · rfl
        · split <;> simp

/-! ### The other operations -/

theorem WellFormed.setValue (hf : f.WellFormed) (n : NodeId) (value : String) :
    (f.setValue n value).WellFormed := by
  refine hf.congr (parent_modify ?_ f n) (children_modify ?_ f n)
  · intro node
    rfl
  · intro node
    rfl

theorem WellFormed.pushChildren (hf : f.WellFormed) (hp : p < f.size)
    (hchildren : ∀ c ∈ children, c < f.size) : (f.pushChildren p children).WellFormed := by
  induction children generalizing f with
  | nil => exact hf
  | cons c children ih =>
      rw [List.forall_mem_cons] at hchildren
      have hsize : (f.pushChild p c).size = f.size := size_insertChild f p _ c
      refine ih (hf.insertChild hchildren.1 hp _) (hsize.symm ▸ hp) fun d hd => ?_
      rw [hsize]
      exact hchildren.2 d hd

/-- **Each operation keeps a forest well formed, and loses no node.** -/
theorem Operation.wellFormed (h : Operation f g) (hf : f.WellFormed) :
    g.WellFormed ∧ f.size ≤ g.size := by
  cases h with
  | newNode _ value => exact ⟨hf.newNode value, (keeps_newNode f value).size_le⟩
  | @newParent _ children value hchildren =>
      have hlt := lt_size_newNode f value
      constructor
      · exact (hf.newNode value).pushChildren hlt fun c hc => Nat.lt_trans (hchildren c hc) hlt
      · show f.size ≤ ((f.newNode value).1.pushChildren f.size children).size
        rw [size_pushChildren]
        exact Nat.le_of_lt hlt
  | pushChild hp hc =>
      exact ⟨hf.insertChild hc hp _, Nat.le_of_eq (size_insertChild _ _ _ _).symm⟩
  | insertChild hp index hc =>
      exact ⟨hf.insertChild hc hp _, Nat.le_of_eq (size_insertChild _ _ _ _).symm⟩
  | replaceChild p index hc =>
      exact ⟨hf.replaceChild hc p index, Nat.le_of_eq (size_replaceChild _ _ _ _).symm⟩
  | detach _ n => exact ⟨hf.detach n, Nat.le_of_eq (size_detach f n).symm⟩
  | setValue _ n value => exact ⟨hf.setValue n value, Nat.le_of_eq (size_modify f n _).symm⟩
  | deepClone _ n =>
      have hclone := planted_deepClone hf n
      exact ⟨hclone.wellFormed, hclone.keeps.size_le⟩
  | @load tree =>
      have hplanted := planted_plant tree hf
      exact ⟨hplanted.wellFormed, hplanted.keeps.size_le⟩

/-- What each step keeps is kept by any number of them. -/
theorem wellFormed_of_steps {step : Forest → Forest → Prop}
    (hstep : ∀ f g, step f g → f.WellFormed → g.WellFormed ∧ f.size ≤ g.size)
    (h : Relation.ReflTransGen step f g) (hf : f.WellFormed) : g.WellFormed ∧ f.size ≤ g.size := by
  induction h with
  | refl => exact ⟨hf, Nat.le_refl _⟩
  | tail _ hlast ih =>
      have hnext := hstep _ _ hlast ih.1
      exact ⟨hnext.1, Nat.le_trans ih.2 hnext.2⟩

theorem Operations.wellFormed (h : Operations f g) (hf : f.WellFormed) :
    g.WellFormed ∧ f.size ≤ g.size :=
  wellFormed_of_steps (fun _ _ => Operation.wellFormed) h hf

end TreeRules.Forest
