/-
Hanging trees beneath a node.

New nodes and instances of templates are put together from the bottom up: nodes without a parent are
hung, one after another, beneath a node that lies in none of their trees.  `Loose` says that some
nodes can be hung so, and `Hung` what comes of it: they stand among the children in their order, and
nothing else has changed.  In particular the trees that they are the roots of look as before.
-/
import TreeRules.Proofs.Forest.Edit
import TreeRules.Proofs.Forest.Tree

namespace TreeRules.Forest

variable {f g h : Forest} {c n p r : NodeId} {before roots after : List NodeId}

/-- The nodes are roots of trees apart from one another and from the tree in which `p` lies. -/
structure Loose (f : Forest) (p : NodeId) (roots : List NodeId) : Prop where
  nodup : roots.Nodup
  lt_size : ∀ r ∈ roots, r < f.size
  top : ∀ r ∈ roots, f.parent r = none
  apart : ∀ r ∈ roots, ¬ f.Within p r

/-- The second forest comes of the first by hanging nodes beneath `p`, between the children
`before` and `after`. -/
structure Hung (f g : Forest) (p : NodeId) (before roots after : List NodeId) : Prop where
  wellFormed : g.WellFormed
  size : g.size = f.size
  value : ∀ n, g.value n = f.value n
  parent : ∀ n, g.parent n = if n ∈ roots then some p else f.parent n
  children_self : g.children p = before ++ roots ++ after
  children : ∀ n, n ≠ p → g.children n = f.children n

/-! ### Hanging one node -/

theorem filter_ne_of_not_mem {l : List NodeId} (h : n ∉ l) : l.filter (· != n) = l := by
  refine List.filter_eq_self.mpr fun c hc => ?_
  rw [bne_iff_ne]
  exact ne_of_mem_of_not_mem hc h

/-- A node without a parent is nobody's child. -/
theorem WellFormed.not_mem_children (hf : f.WellFormed) (hr : f.parent r = none) (n : NodeId) :
    r ∉ f.children n := by
  intro hmem
  rw [(hf.parent_iff r n).mpr hmem] at hr
  simp at hr

theorem WellFormed.filter_children_of_top (hf : f.WellFormed) (hr : f.parent r = none)
    (n : NodeId) : (f.children n).filter (· != r) = f.children n :=
  filter_ne_of_not_mem (hf.not_mem_children hr n)

theorem insertIdx_length_append (before after : List NodeId) (r : NodeId) :
    (before ++ after).insertIdx before.length r = before ++ r :: after := by
  induction before with
  | nil => simp
  | cons c before ih => simp [ih]

/-- A node without a parent is hung at any position; one that is too large means the end. -/
theorem hung_insertChild_at (hf : f.WellFormed) (hp : p < f.size) (hr : r < f.size)
    (htop : f.parent r = none) (hapart : ¬ f.Within p r) (index : Nat) :
    Hung f (f.insertChild p index r) p ((f.children p).take index) [r]
      ((f.children p).drop index) where
  wellFormed := hf.insertChild hr hp _
  size := size_insertChild f p _ r
  value := value_insertChild f p _ r
  parent := by
    intro n
    rw [parent_insertChild hf hr hapart]
    simp only [List.mem_singleton]
  children_self := by
    have hinsert :=
      insertIdx_length_append ((f.children p).take index) ((f.children p).drop index) r
    rw [List.take_append_drop, List.length_take] at hinsert
    rw [children_insertChild hf hapart hp, if_pos rfl, hf.filter_children_of_top htop, hinsert]
    simp
  children := by
    intro n hn
    rw [children_insertChild hf hapart hp, if_neg hn, hf.filter_children_of_top htop]

theorem hung_insertChild (hf : f.WellFormed) (hp : p < f.size) (hr : r < f.size)
    (htop : f.parent r = none) (hapart : ¬ f.Within p r)
    (hchildren : f.children p = before ++ after) :
    Hung f (f.insertChild p before.length r) p before [r] after := by
  have hat := hung_insertChild_at hf hp hr htop hapart before.length
  rwa [hchildren, List.take_left, List.drop_left] at hat

namespace Hung

theorem nil (hf : f.WellFormed) (hchildren : f.children p = before ++ after) :
    Hung f f p before [] after where
  wellFormed := hf
  size := rfl
  value := by intro n; rfl
  parent := by intro n; simp
  children_self := by rw [hchildren, List.append_nil]
  children := by intro n _; rfl

/-- First one node, then others behind it. -/
theorem cons (hg : Hung f g p before [r] after) (hh : Hung g h p (before ++ [r]) roots after) :
    Hung f h p before (r :: roots) after where
  wellFormed := hh.wellFormed
  size := hh.size.trans hg.size
  value := by intro n; rw [hh.value, hg.value]
  parent := by
    intro n
    rw [hh.parent, hg.parent]
    by_cases hroots : n ∈ roots
    · simp [hroots]
    · simp [hroots]
  children_self := by rw [hh.children_self]; simp
  children := by intro n hn; rw [hh.children n hn, hg.children n hn]

/-- The trees that `p` does not lie in look as before. -/
theorem tree_eq (hg : Hung f g p before roots after) (hf : f.WellFormed) (hn : ¬ f.Within p n) :
    g.tree n = f.tree n := by
  refine hf.tree_congr hg.wellFormed n (fun x _ => hg.value x) fun x hx => ?_
  refine hg.children x ?_
  rintro rfl
  exact hn hx

/-- What lay within a node still does, if nothing but roots of trees has been hung. -/
theorem within (hg : Hung f g p before roots after) (htop : ∀ r ∈ roots, f.parent r = none)
    {a : NodeId} (h : f.Within n a) : g.Within n a := by
  refine Relation.ReflTransGen.mono (fun x y hup => ?_) n a h
  have hnot : x ∉ roots := by
    intro hmem
    exact absurd ((htop x hmem).symm.trans hup) (by simp)
  exact (hg.parent x).trans ((if_neg hnot).trans hup)

end Hung

/-- When the first of some loose nodes has been hung, the others are still loose. -/
theorem Loose.tail (hloose : f.Loose p (r :: roots)) (hg : Hung f g p before [r] after) :
    g.Loose p roots := by
  have hnodup := List.nodup_cons.mp hloose.nodup
  have hparent : ∀ n, n ≠ r → g.parent n = f.parent n := by
    intro n hn
    rw [hg.parent, if_neg (by simpa using hn)]
  refine ⟨hnodup.2, fun n hn => ?_, fun n hn => ?_, fun n hn hwithin => ?_⟩
  · rw [hg.size]
    exact hloose.lt_size n (List.mem_cons_of_mem r hn)
  · rw [hparent n (ne_of_mem_of_not_mem hn hnodup.1)]
    exact hloose.top n (List.mem_cons_of_mem r hn)
  · have hfirst := hloose.apart r List.mem_cons_self
    have hother := hloose.apart n (List.mem_cons_of_mem r hn)
    rcases Relation.reflTransGen_iff_eq_or_transGen.mp hwithin with rfl | hbeneath
    · exact hother (Within.refl _)
    · have hmoved : g.parent r = some p := by
        rw [hg.parent, if_pos List.mem_cons_self]
      rcases beneath_of_moved hparent hmoved hbeneath with hup | ⟨hpr, -⟩
      · exact hother hup.to_reflTransGen
      · exact hfirst hpr

theorem Loose.hung_insertChild_at (hloose : f.Loose p (r :: roots)) (hf : f.WellFormed)
    (hp : p < f.size) (index : Nat) :
    Hung f (f.insertChild p index r) p ((f.children p).take index) [r]
      ((f.children p).drop index) :=
  Forest.hung_insertChild_at hf hp (hloose.lt_size r List.mem_cons_self)
    (hloose.top r List.mem_cons_self) (hloose.apart r List.mem_cons_self) index

/-- **Loose nodes are hung behind the children that are there.** -/
theorem Loose.hung_pushChildren (hf : f.WellFormed) (hp : p < f.size) (hloose : f.Loose p roots) :
    Hung f (f.pushChildren p roots) p (f.children p) roots [] := by
  induction roots generalizing f with
  | nil => exact Hung.nil hf (List.append_nil _).symm
  | cons r roots ih =>
      have hpush : Hung f (f.pushChild p r) p (f.children p) [r] [] := by
        have hat := hloose.hung_insertChild_at hf hp (f.children p).length
        rwa [List.take_length, List.drop_length] at hat
      have hrest := ih hpush.wellFormed (hpush.size.symm ▸ hp) (hloose.tail hpush)
      rw [hpush.children_self, List.append_nil] at hrest
      exact hpush.cons hrest

end TreeRules.Forest
