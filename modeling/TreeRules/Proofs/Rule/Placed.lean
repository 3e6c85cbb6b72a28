/-
What a template has done when it has been applied.

The instance is built, its roots are put into the target's place, and then the reports are made.
Putting the roots in place changes nothing at or beneath them, and the reports change no node; so
what has been put in looks as the instance was built, node by node.  `Placed` says so, for a place
among the children of a node as well as for the place of the document's root.

What the reports deliver is told by the records that the nodes had before: no edit has changed them
in the meantime.
-/
import TreeRules.Proofs.Rule.Splice
import TreeRules.Proofs.Template.Moved

namespace TreeRules

/-- The nodes that are moved when the template replaces the match's target. -/
def Template.moved (t : Template) (f : Forest) (m : Match) : List NodeId :=
  (t.instantiate (f.detach m.target) m).1.moved

namespace Replacement

variable {d d' : Document} {f g h : Forest} {m : Match} {t : Template} {applied : Applied}
  {place : Option NodeId} {roots : List NodeId} {n p r : NodeId}

/-! ### Reports -/

theorem silent_insertAll (f : Forest) (p : NodeId) (index : Nat) (roots : List NodeId) :
    f.Silent (insertAll f p index roots) := by
  induction roots generalizing f index with
  | nil => exact Forest.Silent.refl f
  | cons r roots ih => exact (Forest.silent_insertChild f p index r).trans (ih _ _)

theorem silent_instantiate (f : Forest) (t : Template) (m : Match) :
    f.Silent (t.instantiate (f.detach m.target) m).1.forest :=
  (Instance.kept_silent m f).nodes t.roots _ (Forest.silent_detach f m.target)

/-- **What the reports of a replacement deliver**: that the target was removed, each node that was
moved, each root that was put in, and that the children of the target's parent changed. -/
theorem deliveries_report (hf : f.Silent g) (target : NodeId) (moved roots : List NodeId)
    (place : Option NodeId) :
    (report g target moved roots place).deliveries.toList = f.deliveries.toList ++
      (f.heard target .removed ++ moved.flatMap (f.heard · .moved) ++
        roots.flatMap (f.heard · .inserted) ++
        place.toList.flatMap (f.heard · .childrenChanged)) := by
  have hheard : ∀ n kind, g.heard n kind = f.heard n kind := hf.heard
  -- the reports themselves leave the records as they are
  have hmoved : ∀ n kind,
      (moved.foldl (·.notify · .moved) (g.notify target .removed)).heard n kind =
        f.heard n kind := by
    intro n kind
    rw [Forest.heard_foldl_notify, ← hheard]
    rfl
  have hroots : ∀ n kind, (roots.foldl (·.notify · .inserted)
      (moved.foldl (·.notify · .moved) (g.notify target .removed))).heard n kind =
        f.heard n kind := by
    intro n kind
    rw [Forest.heard_foldl_notify, hmoved]
  have hfirst : ∀ n kind, (g.notify target .removed).heard n kind = f.heard n kind := hheard
  unfold report
  cases place with
  | none =>
      dsimp only
      rw [Forest.deliveries_foldl_notify, Forest.deliveries_foldl_notify, Forest.deliveries_notify]
      simp only [hfirst, hmoved, hheard, hf.deliveries]
      simp
  | some p =>
      dsimp only
      rw [Forest.deliveries_notify, Forest.deliveries_foldl_notify, Forest.deliveries_foldl_notify,
        Forest.deliveries_notify]
      simp only [hfirst, hmoved, hroots, hheard, hf.deliveries]
      simp

/-! ### The place -/

/-- Roots have been put among the children of the node that `place` names, or into the root's place
if it names none; nothing else has changed. -/
structure Placed (f g : Forest) (place : Option NodeId) (roots : List NodeId) : Prop where
  wellFormed : g.WellFormed
  size : g.size = f.size
  value : ∀ n, g.value n = f.value n
  children : ∀ n, place ≠ some n → g.children n = f.children n
  /-- The place lies in none of the trees that are put there. -/
  apart : ∀ r ∈ roots, ∀ p, place = some p → ¬ f.Within p r

theorem Placed.of_hung {before after : List NodeId} (hg : f.Hung g p before roots after)
    (hloose : f.Loose p roots) : Placed f g (some p) roots where
  wellFormed := hg.wellFormed
  size := hg.size
  value := hg.value
  children := by
    intro n hne
    exact hg.children n fun heq => hne (heq ▸ rfl)
  apart := by
    intro r hr q hq
    exact Option.some.inj hq ▸ hloose.apart r hr

theorem Placed.of_nodes_eq (hf : f.WellFormed) (hnodes : g.nodes = f.nodes) :
    Placed f g none roots where
  wellFormed := (hf.grows_of_nodes_eq hnodes).wellFormed
  size := by rw [Forest.size, hnodes, Forest.size]
  value := by intro n; rw [Forest.value, hnodes, Forest.value]
  children := by intro n _; rw [Forest.children, hnodes, Forest.children]
  apart := by intro r _ p hp; cases hp

namespace Placed

/-- Beneath what has been put in place, no node has other children than before. -/
theorem children_of_within (hg : Placed f g place roots) (hr : r ∈ roots) (hn : f.Within n r) :
    g.children n = f.children n := by
  refine hg.children n ?_
  rintro rfl
  exact hg.apart r hr n rfl hn

theorem tree_eq (hg : Placed f g place roots) (hf : f.WellFormed) (hr : r ∈ roots)
    (hn : f.Within n r) : g.tree n = f.tree n :=
  hf.tree_congr hg.wellFormed n (fun x _ => hg.value x)
    fun _ hx => hg.children_of_within hr (hx.trans hn)

theorem preorder_eq (hg : Placed f g place roots) (hf : f.WellFormed) (hr : r ∈ roots) :
    g.preorder r = f.preorder r :=
  hf.preorder_congr hg.wellFormed r fun _ hx => hg.children_of_within hr hx

end Placed

/-! ### The whole replacement -/

theorem applyTemplate_of_root (hp : d.forest.parent m.target = none)
    (hcount : t.rootCount m = 1) :
    ∃ root, applyTemplate d m t =
      let b := t.instantiate (d.forest.detach m.target) m
      (⟨report b.1.forest m.target b.1.moved b.2 none, root⟩,
        .ok { changed := true, inserted := b.2 }) := by
  obtain ⟨root, hroot⟩ :=
    List.length_eq_one_iff.mp ((t.length_instantiate (d.forest.detach m.target) m).trans hcount)
  have hplace : placeOf d.forest m.target = ⟨none, (d.forest.index m.target).getD 0⟩ := by
    rw [placeOf, hp]
  refine ⟨root, ?_⟩
  unfold applyTemplate
  dsimp only
  rw [hplace, hcount, hroot]
  rfl

/-- In the place of a node that has a parent, no template is refused. -/
theorem apply_ok_of_parent (t : Template) (hp : d.forest.parent m.target = some p) :
    ∃ d' applied, (template t).apply d m = (d', .ok applied) := by
  rw [apply_template_of_parent hp, applyTemplate_eq hp]
  exact ⟨_, _, rfl⟩

/-- **What a template that was not refused has done.** -/
theorem of_apply_template_ok (hf : d.forest.WellFormed) (ht : m.target < d.forest.size)
    (h : (template t).apply d m = (d', .ok applied)) :
    applied.inserted = (t.instantiate (d.forest.detach m.target) m).2 ∧
      Placed (t.instantiate (d.forest.detach m.target) m).1.forest d'.forest
        (d.forest.parent m.target) applied.inserted ∧
      d'.forest.deliveries.toList = d.forest.deliveries.toList ++
        (d.forest.heard m.target .removed ++
          (t.moved d.forest m).flatMap (d.forest.heard · .moved) ++
          applied.inserted.flatMap (d.forest.heard · .inserted) ++
          (d.forest.parent m.target).toList.flatMap (d.forest.heard · .childrenChanged)) := by
  have hadds := adds_instantiate hf ht t
  have hsilent := silent_instantiate d.forest t m
  cases hp : d.forest.parent m.target with
  | some p =>
      rw [apply_template_of_parent hp, applyTemplate_eq hp] at h
      obtain ⟨rfl, happlied⟩ := Prod.mk.inj h
      cases happlied
      have hlt : p < (t.instantiate (d.forest.detach m.target) m).1.forest.size :=
        Nat.lt_of_lt_of_le (hf.parent_lt_size hp)
          (Nat.le_trans (Nat.le_of_eq (Forest.size_detach _ _).symm) hadds.size_le)
      have hloose := loose_instantiate hf hp t
      have hhung := hloose.hung_insertAll_at hadds.wellFormed hlt
        ((d.forest.index m.target).getD 0)
      refine ⟨rfl, Placed.of_hung (hhung.of_nodes_eq (nodes_report _ _ _ _ _)) hloose, ?_⟩
      exact deliveries_report (hsilent.trans (silent_insertAll _ p _ _)) _ _ _ _
  | none =>
      by_cases hplace : HasPlace d m
      · rw [apply_template hplace] at h
        by_cases hcount : t.rootCount m = 1
        · obtain ⟨root, heq⟩ := applyTemplate_of_root hp hcount
          rw [heq] at h
          obtain ⟨rfl, happlied⟩ := Prod.mk.inj h
          cases happlied
          exact ⟨rfl, Placed.of_nodes_eq hadds.wellFormed (nodes_report _ _ _ _ _),
            deliveries_report hsilent _ _ _ _⟩
        · rw [applyTemplate_of_refused t hp hcount] at h
          cases h
      · rw [apply_of_not_hasPlace hplace] at h
        cases h

end Replacement

end TreeRules
