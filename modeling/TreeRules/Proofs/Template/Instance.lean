/-
What an instance of a template is made of.

An instance takes nodes from beneath the match's target and makes new ones, and it puts only such
nodes in place.  So it edits nothing but the target's subtree, and the nodes that are to come into
the target's place may be moved again.
-/
import TreeRules.Proofs.Forest.Keeps
import TreeRules.Template.Instance

namespace TreeRules

namespace Forest

variable {f g : Forest} {p t : NodeId}

@[simp] theorem size_pushChildren (g : Forest) (p : NodeId) (children : List NodeId) :
    (g.pushChildren p children).size = g.size := by
  unfold pushChildren
  induction children generalizing g with
  | nil => rfl
  | cons c children ih =>
      rw [List.foldl_cons, ih]
      exact size_insertChild g p _ c

theorem Confined.pushChildren (hg : f.Confined g t) (hp : p < g.size) {children : List NodeId}
    (hchildren : ∀ c ∈ children, f.Free g t c) : f.Confined (g.pushChildren p children) t := by
  unfold Forest.pushChildren
  induction children generalizing g with
  | nil => exact hg
  | cons c children ih =>
      have hsize : (g.pushChild p c).size = g.size := size_insertChild g p _ c
      have hpush : f.Confined (g.pushChild p c) t :=
        hg.insertChild hp (hchildren c List.mem_cons_self) _
      rw [List.foldl_cons]
      refine ih hpush (hsize.symm ▸ hp) fun d hd => ?_
      exact (hchildren d (List.mem_cons_of_mem _ hd)).mono (Nat.le_of_eq hsize.symm)

end Forest

namespace Instance

variable {f : Forest} {m : Match} {b b' b'' : Instance} {roots roots' : List NodeId}

/-- An instance has been built further, without editing more than the target's subtree; the roots
built may be moved. -/
structure Built (f : Forest) (m : Match) (b b' : Instance) (roots : List NodeId) : Prop where
  confined : f.Confined b'.forest m.target
  /-- Nothing that was there has gone. -/
  size_le : b.forest.size ≤ b'.forest.size
  free : ∀ root ∈ roots, f.Free b'.forest m.target root

theorem Built.nil (hb : f.Confined b.forest m.target) : Built f m b b [] where
  confined := hb
  size_le := Nat.le_refl _
  free := by
    intro root hroot
    exact absurd hroot List.not_mem_nil

theorem Built.append (h : Built f m b b' roots) (h' : Built f m b' b'' roots') :
    Built f m b b'' (roots ++ roots') where
  confined := h'.confined
  size_le := Nat.le_trans h.size_le h'.size_le
  free := by
    intro root hroot
    rcases List.mem_append.mp hroot with hroot | hroot
    · exact (h.free root hroot).mono h'.size_le
    · exact h'.free root hroot

/-- Using a node moves it out of the target's subtree or makes new nodes. -/
theorem built_use (hf : f.WellFormed) (ht : m.target < f.size)
    (hb : f.Confined b.forest m.target) (n : NodeId) :
    Built f m b (b.use m n).1 [(b.use m n).2] := by
  by_cases hmove : (b.forest.encloses m.target n && !b.moved.contains n) = true
  · have hwithin : b.forest.Within n m.target := by
      rw [Bool.and_eq_true, hb.wellFormed.encloses_iff] at hmove
      exact hmove.1
    have hfree := hb.free_of_within hf ht hwithin
    have hsize : (b.forest.detach n).size = b.forest.size := Forest.size_detach b.forest n
    rw [use, if_pos hmove]
    refine ⟨hb.detach hfree, Nat.le_of_eq hsize.symm, fun root hroot => ?_⟩
    rw [List.mem_singleton] at hroot
    exact hroot ▸ hfree.mono (Nat.le_of_eq hsize.symm)
  · obtain ⟨hgrows, hlt⟩ := Forest.grows_plant (b.forest.tree n) hb.wellFormed
    rw [use, if_neg hmove]
    refine ⟨hb.grow hgrows, Nat.le_of_lt hlt, fun root hroot => ?_⟩
    rw [List.mem_singleton] at hroot
    have hroot' : root = b.forest.size := hroot.trans (Forest.plant_snd b.forest _)
    exact Forest.Free.of_new (hroot' ▸ hlt) (hroot' ▸ hb.keeps.size_le)

theorem built_useAll (hf : f.WellFormed) (ht : m.target < f.size) (ns : List NodeId) :
    ∀ {b : Instance}, f.Confined b.forest m.target →
      Built f m b (b.useAll m ns).1 (b.useAll m ns).2 := by
  induction ns with
  | nil => intro b hb; exact Built.nil hb
  | cons n ns ih =>
      intro b hb
      have huse := built_use hf ht hb n
      exact huse.append (ih huse.confined)

/-- A new node is made before the nodes that are put beneath it. -/
theorem built_literal {text : String} (hb : f.Confined b.forest m.target)
    (hchildren : Built f m { b with forest := (b.forest.newNode text).1 } b' roots) :
    Built f m b { b' with forest := b'.forest.pushChildren b.forest.size roots }
      [b.forest.size] := by
  have hroot : b.forest.size < b'.forest.size :=
    Nat.lt_of_lt_of_le (Forest.lt_size_newNode b.forest text) hchildren.size_le
  refine ⟨hchildren.confined.pushChildren hroot hchildren.free, ?_, fun root h => ?_⟩
  · rw [Forest.size_pushChildren]
    exact Nat.le_of_lt hroot
  · rw [List.mem_singleton] at h
    subst h
    refine Forest.Free.of_new ?_ hb.keeps.size_le
    rwa [Forest.size_pushChildren]

mutual

theorem built_node (hf : f.WellFormed) (ht : m.target < f.size) :
    ∀ (t : TemplateNode) {b : Instance}, f.Confined b.forest m.target →
      Built f m b (node m b t).1 (node m b t).2
  | .node (.literal text) beneath, b, hb => by
      rw [node]
      exact built_literal hb
        (built_nodes hf ht beneath (hb.grow (hb.wellFormed.grows_newNode text)))
  | .node .target _, b, hb => by
      rw [node]
      exact built_use hf ht hb m.target
  | .node (.capture name _) _, b, hb => by
      rw [node]
      exact built_useAll hf ht (m.nodes name) hb

theorem built_nodes (hf : f.WellFormed) (ht : m.target < f.size) :
    ∀ (ts : List TemplateNode) {b : Instance}, f.Confined b.forest m.target →
      Built f m b (nodes m b ts).1 (nodes m b ts).2
  | [], b, hb => by
      rw [nodes]
      exact Built.nil hb
  | first :: others, b, hb => by
      have hfirst := built_node hf ht first hb
      rw [nodes]
      exact hfirst.append (built_nodes hf ht others hfirst.confined)

end

end Instance

/-- **An instance edits nothing but the target's subtree.** -/
theorem Template.built_instantiate {f g : Forest} {m : Match} (hf : f.WellFormed)
    (ht : m.target < f.size) (hg : f.Confined g m.target) (t : Template) :
    Instance.Built f m { forest := g } (t.instantiate g m).1 (t.instantiate g m).2 :=
  Instance.built_nodes hf ht t.roots hg

/-- So does one that is built when the target has been taken out. -/
theorem Template.built_instantiate_detach {f : Forest} {m : Match} (hf : f.WellFormed)
    (ht : m.target < f.size) (t : Template) :
    Instance.Built f m { forest := f.detach m.target } (t.instantiate (f.detach m.target) m).1
      (t.instantiate (f.detach m.target) m).2 := by
  refine t.built_instantiate hf ht ((Forest.Confined.refl hf _).detach ?_)
  exact ⟨ht, fun _ => Forest.Within.refl m.target⟩

end TreeRules
