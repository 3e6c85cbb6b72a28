/-
What building an instance leaves as it was.

While an instance is built, a node that was there before is at most moved, and then only out of the
target's subtree, where it has a use.  All else that happens to it is that it loses the children
that are moved.  What is handed on as roots has no parent yet, so it can be hung beneath a node or
put in the target's place.

`Adds` says all this of one part of the building, and parts follow one another.
-/
import Mathlib.Data.List.Nodup
import TreeRules.Proofs.Forest.Plant
import TreeRules.Proofs.Template.Instance

namespace TreeRules

mutual

/-- The nodes of the match that a node of a template stands for, or that nodes beneath it do. -/
def TemplateNode.uses (m : Match) : TemplateNode → List NodeId
  | .node (.literal _) beneath => usesOf m beneath
  | .node .target _ => [m.target]
  | .node (.capture name _) _ => m.nodes name

/-- The nodes of the match that some nodes of a template stand for. -/
def TemplateNode.usesOf (m : Match) : List TemplateNode → List NodeId
  | [] => []
  | first :: others => uses m first ++ usesOf m others

end

namespace Instance

variable {m : Match} {used : NodeId → Prop} {b b' b'' : Instance} {n x y : NodeId}
  {roots roots' : List NodeId}

/-- The node is moved from the one moment to the other. -/
def Moves (b b' : Instance) (n : NodeId) : Prop := n ∈ b'.moved ∧ n ∉ b.moved

instance (b b' : Instance) (n : NodeId) : Decidable (Moves b b' n) :=
  inferInstanceAs (Decidable (_ ∧ _))

theorem filter_not_moves (h : b'.moved = b.moved) (ns : List NodeId) :
    ns.filter (¬ Moves b b' ·) = ns := by
  refine List.filter_eq_self.mpr fun c _ => ?_
  rw [decide_eq_true_eq]
  exact fun hc => hc.2 (h ▸ hc.1)

/-- The node is new, or is moved, from the one moment to the other. -/
def Fresh (b b' : Instance) (n : NodeId) : Prop := b.forest.size ≤ n ∨ Moves b b' n

/-- An instance has been built further, by parts that have a use for the nodes in `used`. -/
structure Adds (m : Match) (used : NodeId → Prop) (b b' : Instance) (roots : List NodeId) :
    Prop where
  wellFormed : b'.forest.WellFormed
  size_le : b.forest.size ≤ b'.forest.size
  moved_subset : b.moved ⊆ b'.moved
  moves : ∀ n, Moves b b' n → used n ∧ b.forest.Within n m.target
  value : ∀ n, n < b.forest.size → b'.forest.value n = b.forest.value n
  parent : ∀ n, n < b.forest.size → ¬ Moves b b' n → b'.forest.parent n = b.forest.parent n
  children : ∀ n, n < b.forest.size →
    b'.forest.children n = (b.forest.children n).filter (¬ Moves b b' ·)
  /-- The roots are different nodes, and none has a parent. -/
  nodup : roots.Nodup
  lt_size : ∀ r ∈ roots, r < b'.forest.size
  top : ∀ r ∈ roots, b'.forest.parent r = none
  fresh : ∀ r ∈ roots, Fresh b b' r

namespace Adds

/-! ### Where nodes come to lie -/

/-- What is new or moved has new nodes above it only. -/
theorem size_le_parent (h : Adds m used b b' roots) (hb : b.forest.WellFormed)
    (hn : Fresh b b' n) (hp : b'.forest.parent n = some x) : b.forest.size ≤ x := by
  by_contra hx
  have hmem := (h.wellFormed.parent_iff n x).mp hp
  rw [h.children x (Nat.lt_of_not_le hx), List.mem_filter, decide_eq_true_eq] at hmem
  rcases hn with hnew | hmoves
  · exact Nat.not_lt.mpr hnew (hb.lt_size_of_child hmem.1)
  · exact hmem.2 hmoves

theorem size_le_of_within (h : Adds m used b b' roots) (hb : b.forest.WellFormed)
    (hn : b.forest.size ≤ n) (hw : b'.forest.Within n x) : b.forest.size ≤ x := by
  induction hw with
  | refl => exact hn
  | tail _ hp ih => exact h.size_le_parent hb (Or.inl ih) hp

/-- A node of before that lies within another one of before did so from the first. -/
theorem within_of_within (h : Adds m used b b' roots) (hb : b.forest.WellFormed)
    (hn : n < b.forest.size) (hx : x < b.forest.size) (hw : b'.forest.Within n x) :
    b.forest.Within n x := by
  induction hw using Relation.ReflTransGen.head_induction_on with
  | refl => exact Forest.Within.refl x
  | @head n p hp hpx ih =>
      have hfresh : ¬ Fresh b b' n := by
        intro hfresh
        have hpnew := h.size_le_parent hb hfresh hp
        exact Nat.not_lt.mpr (h.size_le_of_within hb hpnew hpx) hx
      have hparent : b.forest.parent n = some p :=
        (h.parent n hn fun hmoves => hfresh (Or.inr hmoves)).symm.trans hp
      exact Forest.Within.of_parent hparent (ih (hb.parent_lt_size hparent))

/-- A node of before that lies within a new one lies within a node that has been moved. -/
theorem exists_moves_of_within (h : Adds m used b b' roots) (hb : b.forest.WellFormed)
    (hn : n < b.forest.size) (hx : b.forest.size ≤ x) (hw : b'.forest.Within n x) :
    ∃ y, Moves b b' y ∧ b'.forest.Within n y := by
  induction hw using Relation.ReflTransGen.head_induction_on with
  | refl => exact absurd hn (Nat.not_lt.mpr hx)
  | @head n p hp _ ih =>
      by_cases hmoves : Moves b b' n
      · exact ⟨n, hmoves, Forest.Within.refl n⟩
      · have hparent : b.forest.parent n = some p := (h.parent n hn hmoves).symm.trans hp
        obtain ⟨y, hy, hpy⟩ := ih (hb.parent_lt_size hparent)
        exact ⟨y, hy, Forest.Within.of_parent hp hpy⟩

/-! ### One part after another -/

theorem moves_iff (h : Adds m used b b' roots) (h' : Adds m used b' b'' roots') (n : NodeId) :
    Moves b b'' n ↔ Moves b b' n ∨ Moves b' b'' n := by
  have hfirst : n ∈ b.moved → n ∈ b'.moved := fun hmem => h.moved_subset hmem
  have hsecond : n ∈ b'.moved → n ∈ b''.moved := fun hmem => h'.moved_subset hmem
  unfold Moves
  tauto

/-- What has been built is not moved later. -/
theorem not_moves_of_fresh (h : Adds m used b b' roots) (h' : Adds m used b' b'' roots')
    (hb : b.forest.WellFormed) (ht : m.target < b.forest.size) (hn : Fresh b b' n) :
    ¬ Moves b' b'' n := by
  intro hmove
  rcases hn with hnew | hmoved
  · exact Nat.not_lt.mpr (h.size_le_of_within hb hnew (h'.moves n hmove).2) ht
  · exact hmove.2 hmoved.1

theorem nil (hb : b.forest.WellFormed) : Adds m used b b [] where
  wellFormed := hb
  size_le := Nat.le_refl _
  moved_subset := List.Subset.refl _
  moves := by intro n hn; exact absurd hn.1 hn.2
  value := by intro n _; rfl
  parent := by intro n _ _; rfl
  children := by intro n _; exact (filter_not_moves rfl _).symm
  nodup := List.nodup_nil
  lt_size := by simp
  top := by simp
  fresh := by simp

theorem append (h : Adds m used b b' roots) (h' : Adds m used b' b'' roots')
    (hb : b.forest.WellFormed) (ht : m.target < b.forest.size) :
    Adds m used b b'' (roots ++ roots') := by
  have hnot : ∀ r ∈ roots, ¬ Moves b' b'' r := fun r hr =>
    h.not_moves_of_fresh h' hb ht (h.fresh r hr)
  -- what the second part moves lay within the target from the first
  have hwithin : ∀ n, Moves b' b'' n → b.forest.Within n m.target := by
    intro n hn
    have hlt : n < b.forest.size := by
      by_contra hnew
      exact h.not_moves_of_fresh h' hb ht (Or.inl (Nat.le_of_not_lt hnew)) hn
    exact h.within_of_within hb hlt ht (h'.moves n hn).2
  refine ⟨h'.wellFormed, Nat.le_trans h.size_le h'.size_le,
    List.Subset.trans h.moved_subset h'.moved_subset, fun n hn => ?_, fun n hn => ?_,
    fun n hn hstays => ?_, fun n hn => ?_, ?_, fun r hr => ?_, fun r hr => ?_, fun r hr => ?_⟩
  · rcases (h.moves_iff h' n).mp hn with hfirst | hsecond
    · exact h.moves n hfirst
    · exact ⟨(h'.moves n hsecond).1, hwithin n hsecond⟩
  · rw [h'.value n (Nat.lt_of_lt_of_le hn h.size_le), h.value n hn]
  · rw [h.moves_iff h', not_or] at hstays
    rw [h'.parent n (Nat.lt_of_lt_of_le hn h.size_le) hstays.2, h.parent n hn hstays.1]
  · rw [h'.children n (Nat.lt_of_lt_of_le hn h.size_le), h.children n hn, List.filter_filter]
    refine List.filter_congr fun c _ => ?_
    rw [← Bool.decide_and, decide_eq_decide, h.moves_iff h' c, not_or, and_comm]
  · refine List.nodup_append.mpr ⟨h.nodup, h'.nodup, ?_⟩
    rintro r hr _ hr' rfl
    rcases h'.fresh r hr' with hnew | hmove
    · exact Nat.not_lt.mpr hnew (h.lt_size r hr)
    · exact hnot r hr hmove
  · rcases List.mem_append.mp hr with hr | hr
    · exact Nat.lt_of_lt_of_le (h.lt_size r hr) h'.size_le
    · exact h'.lt_size r hr
  · rcases List.mem_append.mp hr with hr | hr
    · rw [h'.parent r (h.lt_size r hr) (hnot r hr), h.top r hr]
    · exact h'.top r hr
  · rcases List.mem_append.mp hr with hr | hr
    · exact (h.fresh r hr).imp_right fun hmove => (h.moves_iff h' r).mpr (Or.inl hmove)
    · exact (h'.fresh r hr).imp (Nat.le_trans h.size_le)
        fun hmove => (h.moves_iff h' r).mpr (Or.inr hmove)

end Adds

/-! ### The parts of an instance -/

/-- Using a node moves it, or adds a clone of it. -/
theorem adds_use (hb : b.forest.WellFormed) (ht : m.target < b.forest.size) (hn : used n) :
    Adds m used b (b.use m n).1 [(b.use m n).2] := by
  by_cases hmove : (b.forest.encloses m.target n && !b.moved.contains n) = true
  · rw [use, if_pos hmove]
    rw [Bool.and_eq_true, hb.encloses_iff, Bool.not_eq_true', ← Bool.not_eq_true,
      List.contains_iff_mem] at hmove
    obtain ⟨hwithin, hnot⟩ := hmove
    have hmoves : ∀ c, Moves b { forest := b.forest.detach n, moved := b.moved ++ [n] } c ↔
        c = n := by
      intro c
      unfold Moves
      rw [List.mem_append, List.mem_singleton]
      constructor
      · rintro ⟨hmem | heq, hc⟩
        · exact absurd hmem hc
        · exact heq
      · rintro rfl
        exact ⟨Or.inr rfl, hnot⟩
    refine ⟨hb.detach n, Nat.le_of_eq (Forest.size_detach b.forest n).symm,
      List.subset_append_left _ _, fun c hc => ?_, fun c _ => Forest.value_detach b.forest n c,
      fun c _ hc => ?_, fun c _ => ?_, List.nodup_singleton n, ?_, ?_, ?_⟩
    · rw [(hmoves c).mp hc]
      exact ⟨hn, hwithin⟩
    · rw [Forest.parent_detach, if_neg fun heq => hc ((hmoves c).mpr heq)]
    · rw [Forest.children_detach hb]
      refine List.filter_congr fun d _ => ?_
      rw [Bool.eq_iff_iff, bne_iff_ne, decide_eq_true_eq, hmoves]
    · simpa using Forest.lt_size_of_within ht hwithin
    · simp [Forest.parent_detach]
    · rw [List.forall_mem_singleton]
      exact Or.inr ((hmoves n).mpr rfl)
  · have hclone := Forest.planted_deepClone hb n
    have hroot : (b.forest.deepClone n).2 = b.forest.size := Forest.plant_snd b.forest _
    rw [use, if_neg hmove]
    refine ⟨hclone.wellFormed, hclone.keeps.size_le, List.Subset.refl _,
      fun c hc => absurd hc.1 hc.2, fun c hc => hclone.value hc, fun c hc _ => hclone.parent hc,
      fun c hc => ?_, List.nodup_singleton _, ?_, ?_, ?_⟩
    · exact (hclone.children c hc).trans (filter_not_moves rfl _).symm
    · simpa [hroot] using hclone.lt_size
    · simpa [hroot] using hclone.parent_root
    · rw [List.forall_mem_singleton, hroot]
      exact Or.inl (Nat.le_refl _)

theorem adds_useAll (ns : List NodeId) :
    ∀ {b : Instance}, b.forest.WellFormed → m.target < b.forest.size → (∀ n ∈ ns, used n) →
      Adds m used b (b.useAll m ns).1 (b.useAll m ns).2 := by
  induction ns with
  | nil => intro b hb _ _; exact Adds.nil hb
  | cons n ns ih =>
      intro b hb ht hused
      rw [List.forall_mem_cons] at hused
      have huse := adds_use hb ht hused.1
      have hrest := ih huse.wellFormed (Nat.lt_of_lt_of_le ht huse.size_le) hused.2
      exact huse.append hrest hb ht

theorem length_useAll (ns : List NodeId) :
    ∀ b : Instance, (b.useAll m ns).2.length = ns.length := by
  induction ns with
  | nil => intro b; rfl
  | cons n ns ih =>
      intro b
      rw [useAll, List.length_cons, List.length_cons]
      congr 1
      exact ih _

/-- What has been built beneath a new node can be hung there. -/
theorem Adds.loose {text : String}
    (h : Adds m used { b with forest := (b.forest.newNode text).1 } b' roots)
    (ht : m.target < b.forest.size) :
    b'.forest.Loose b.forest.size roots ∧ b'.forest.parent b.forest.size = none ∧
      b'.forest.children b.forest.size = [] := by
  have hlt := Forest.lt_size_newNode b.forest text
  have htop := Forest.parent_newNode_self b.forest text
  have hstays : ¬ Moves { b with forest := (b.forest.newNode text).1 } b' b.forest.size := by
    intro hmove
    have heq := Forest.eq_of_within_of_parent_none htop (h.moves _ hmove).2
    exact Nat.ne_of_lt ht heq.symm
  have hparent : b'.forest.parent b.forest.size = none :=
    (h.parent _ hlt hstays).trans htop
  refine ⟨⟨h.nodup, h.lt_size, h.top, fun r hr hw => ?_⟩, hparent, ?_⟩
  · have heq := Forest.eq_of_within_of_parent_none hparent hw
    rcases h.fresh r hr with hnew | hmove
    · exact Nat.not_lt.mpr hnew (heq ▸ hlt)
    · exact hstays (heq ▸ hmove)
  · rw [h.children _ hlt, Forest.children_newNode, Forest.children_of_size_le (Nat.le_refl _)]
    rfl

/-- A new node is made, and then what comes beneath it is built and hung there. -/
theorem Adds.literal {text : String}
    (h : Adds m used { b with forest := (b.forest.newNode text).1 } b' roots)
    (ht : m.target < b.forest.size) :
    Adds m used b { b' with forest := b'.forest.pushChildren b.forest.size roots }
      [b.forest.size] := by
  have hlt := Forest.lt_size_newNode b.forest text
  have hlt' : b.forest.size < b'.forest.size := Nat.lt_of_lt_of_le hlt h.size_le
  obtain ⟨hloose, htop, -⟩ := h.loose ht
  have hhung := Forest.Loose.hung_pushChildren h.wellFormed hlt' hloose
  have hout : b.forest.size ∉ roots := by
    intro hmem
    exact hloose.apart _ hmem (Forest.Within.refl _)
  refine ⟨hhung.wellFormed, ?_, h.moved_subset, fun n hn => ⟨(h.moves n hn).1, ?_⟩,
    fun n hn => ?_, fun n hn hstays => ?_, fun n hn => ?_, List.nodup_singleton _, ?_, ?_, ?_⟩
  · rw [hhung.size]
    exact Nat.le_of_lt hlt'
  · exact (Forest.within_newNode b.forest text n m.target).mp (h.moves n hn).2
  · have hold : (b.forest.newNode text).1.value n = b.forest.value n := by
      rw [Forest.value_newNode, if_neg (Nat.ne_of_lt hn)]
    rw [hhung.value, h.value n (Nat.lt_trans hn hlt), hold]
  · have hn' : n ∉ roots := by
      intro hmem
      rcases h.fresh n hmem with hnew | hmove
      · exact Nat.not_lt.mpr hnew (Nat.lt_trans hn hlt)
      · exact hstays hmove
    rw [hhung.parent, if_neg hn', h.parent n (Nat.lt_trans hn hlt) hstays, Forest.parent_newNode]
  · rw [hhung.children n (Nat.ne_of_lt hn), h.children n (Nat.lt_trans hn hlt),
      Forest.children_newNode]
    rfl
  · simpa [hhung.size] using hlt'
  · simpa [hhung.parent, hout] using htop
  · rw [List.forall_mem_singleton]
    exact Or.inl (Nat.le_refl _)

mutual

theorem adds_node : ∀ (t : TemplateNode) {b : Instance}, b.forest.WellFormed →
    m.target < b.forest.size → (∀ n ∈ t.uses m, used n) →
    Adds m used b (node m b t).1 (node m b t).2
  | .node (.literal text) beneath, b, hb, ht, hused => by
      have ht' := Nat.lt_trans ht (Forest.lt_size_newNode b.forest text)
      rw [TemplateNode.uses] at hused
      rw [node]
      exact (adds_nodes beneath (hb.newNode text) ht' hused).literal ht
  | .node .target _, b, hb, ht, hused => by
      rw [TemplateNode.uses, List.forall_mem_singleton] at hused
      rw [node]
      exact adds_use hb ht hused
  | .node (.capture name _) _, b, hb, ht, hused => by
      rw [TemplateNode.uses] at hused
      rw [node]
      exact adds_useAll (m.nodes name) hb ht hused

theorem adds_nodes : ∀ (ts : List TemplateNode) {b : Instance}, b.forest.WellFormed →
    m.target < b.forest.size → (∀ n ∈ TemplateNode.usesOf m ts, used n) →
    Adds m used b (nodes m b ts).1 (nodes m b ts).2
  | [], b, hb, _, _ => by
      rw [nodes]
      exact Adds.nil hb
  | first :: others, b, hb, ht, hused => by
      rw [TemplateNode.usesOf, List.forall_mem_append] at hused
      have hfirst := adds_node first hb ht hused.1
      have hothers := adds_nodes others hfirst.wellFormed
        (Nat.lt_of_lt_of_le ht hfirst.size_le) hused.2
      rw [nodes]
      exact hfirst.append hothers hb ht

end

end Instance

end TreeRules
