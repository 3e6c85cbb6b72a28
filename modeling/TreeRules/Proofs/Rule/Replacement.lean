/-
What replacing a target by a template leaves alone.

The target is taken out, an instance is built, and its roots are put where the target was.  All that
edits the target's subtree only; the reports made at the end edit nothing.  A target that has a
parent can always be replaced, and one that has none only by a single node.
-/
import TreeRules.Proofs.Template.Instance
import TreeRules.Rule.Replacement

namespace TreeRules

namespace Forest

variable {f g : Forest}

theorem nodes_foldl_notify (kind : ChangeKind) (ns : List NodeId) :
    ∀ f : Forest, (ns.foldl (·.notify · kind) f).nodes = f.nodes := by
  induction ns with
  | nil => intro f; rfl
  | cons n ns ih =>
      intro f
      rw [List.foldl_cons, ih]
      rfl

end Forest

namespace Replacement

variable {d : Document} {f g : Forest} {m : Match} {p t : NodeId} {roots : List NodeId}

/-! ### The edits -/

theorem nodes_report (f : Forest) (target : NodeId) (moved roots : List NodeId)
    (parent : Option NodeId) : (report f target moved roots parent).nodes = f.nodes := by
  have hnodes : (roots.foldl (·.notify · .inserted)
      (moved.foldl (·.notify · .moved) (f.notify target .removed))).nodes = f.nodes := by
    rw [Forest.nodes_foldl_notify, Forest.nodes_foldl_notify]
    rfl
  unfold report
  cases parent with
  | none => exact hnodes
  | some p => exact hnodes

theorem confined_insertAll (hg : f.Confined g t) (hp : p < g.size)
    (hroots : ∀ root ∈ roots, f.Free g t root) (index : Nat) :
    f.Confined (insertAll g p index roots) t := by
  induction roots generalizing g index with
  | nil => exact hg
  | cons root roots ih =>
      have hsize : (g.insertChild p index root).size = g.size :=
        Forest.size_insertChild g p index root
      have hinsert := hg.insertChild hp (hroots root List.mem_cons_self) index
      rw [insertAll]
      refine ih hinsert (hsize.symm ▸ hp) (fun other hother => ?_) (index + 1)
      exact (hroots other (List.mem_cons_of_mem _ hother)).mono (Nat.le_of_eq hsize.symm)

theorem confined_putInto (hf : f.WellFormed) {n : NodeId} (hd : f.Confined d.forest t)
    (hroots : ∀ root ∈ roots, f.Free d.forest t root) :
    f.Confined (putInto d (placeOf f n) roots).forest t := by
  unfold putInto placeOf
  cases hp : f.parent n with
  | some p =>
      have hlt : p < d.forest.size :=
        Nat.lt_of_lt_of_le (hf.parent_lt_size hp) hd.keeps.size_le
      exact confined_insertAll hd hlt hroots _
  | none =>
      cases roots with
      | nil => exact hd
      | cons root roots => exact hd

theorem root_putInto {place : Place} (hp : place.parent = some p) :
    (putInto d place roots).root = d.root := by
  unfold putInto
  rw [hp]

/-! ### The whole replacement -/

theorem applyTemplate_of_refused (template : Template) (hp : d.forest.parent m.target = none)
    (hcount : template.rootCount m ≠ 1) :
    applyTemplate d m template =
      (d, .error (.invalidRootReplacement m.target (template.rootCount m))) := by
  have hrefused : ((placeOf d.forest m.target).parent.isNone && template.rootCount m != 1) =
      true := by
    rw [placeOf, hp, bne_iff_ne.mpr hcount]
    rfl
  unfold applyTemplate
  exact if_pos hrefused

theorem applyTemplate_of_accepted (template : Template)
    (h : d.forest.parent m.target ≠ none ∨ template.rootCount m = 1) :
    ∃ applied, (applyTemplate d m template).2 = .ok applied := by
  have haccepted : ¬ ((placeOf d.forest m.target).parent.isNone && template.rootCount m != 1) =
      true := by
    rw [placeOf, Bool.and_eq_true, Option.isNone_iff_eq_none, bne_iff_ne]
    rintro ⟨hp, hcount⟩
    exact h.elim (fun hne => hne hp) hcount
  unfold applyTemplate
  dsimp only
  rw [if_neg haccepted]
  exact ⟨_, rfl⟩

/-- **Replacing a target edits nothing but its subtree.** -/
theorem confined_applyTemplate (hf : d.forest.WellFormed) (ht : m.target < d.forest.size)
    (template : Template) :
    d.forest.Confined (applyTemplate d m template).1.forest m.target := by
  unfold applyTemplate
  dsimp only
  split
  · exact Forest.Confined.refl hf m.target
  · have hbuilt := template.built_instantiate_detach hf ht
    have hput := confined_putInto (n := m.target)
      (d := { d with forest := (template.instantiate (d.forest.detach m.target) m).1.forest })
      hf hbuilt.confined hbuilt.free
    exact hput.grow (hput.wellFormed.grows_of_nodes_eq (nodes_report _ _ _ _ _))

/-- The target has a place: that of the document's root, or one among the children of a node. -/
def HasPlace (d : Document) (m : Match) : Prop :=
  d.root = m.target ∨ ∃ p, d.forest.parent m.target = some p

theorem hasPlace_iff :
    HasPlace d m ↔ ¬ ((d.forest.parent m.target).isNone && d.root != m.target) = true := by
  unfold HasPlace
  cases d.forest.parent m.target with
  | none => simp
  | some p => simp

theorem apply_template (h : HasPlace d m) (t : Template) :
    (template t).apply d m = applyTemplate d m t := by
  rw [apply, if_neg (hasPlace_iff.mp h)]

theorem apply_callback (h : HasPlace d m) (build : Forest → Match → Forest × List NodeId) :
    (callback build).apply d m = applyCallback d m build := by
  rw [apply, if_neg (hasPlace_iff.mp h)]

/-- **Where the target has no place, nothing is done**, and no callback is asked. -/
theorem apply_of_not_hasPlace (h : ¬ HasPlace d m) (r : Replacement) :
    r.apply d m = (d, .error (.detachedReplacement m.target .targetGone)) := by
  rw [hasPlace_iff, Decidable.not_not] at h
  unfold apply
  exact if_pos h

theorem apply_template_of_parent (hp : d.forest.parent m.target = some p) (t : Template) :
    (template t).apply d m = applyTemplate d m t :=
  apply_template (Or.inr ⟨p, hp⟩) t

theorem root_applyTemplate (hp : d.forest.parent m.target = some p) (template : Template) :
    (applyTemplate d m template).1.root = d.root := by
  unfold applyTemplate
  dsimp only
  split
  · rfl
  · exact root_putInto hp

end Replacement

end TreeRules
