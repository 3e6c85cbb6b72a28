/-
Where a callback's answer comes to stand.

A callback does to the nodes of the forest what it likes and answers with some of them.  They are
put into the target's place only if each is the root of a tree of its own, which is neither the
document's nor the one that the target's parent lies in.  From that alone none of them is refused by
its insertion: they come to stand side by side, in the order of the answer, and each looks as the
callback has left it.  If one of them has taken the target along, it keeps it, and otherwise the
target is taken out.

The place itself is a position, and it is counted before the callback is asked.  What the callback
takes away in front of the target is not made good for, so what is put in moves back past that many
of the siblings that stood behind the target.
-/
import TreeRules.Proofs.Rule.Failure
import TreeRules.Rule.Recipe

namespace TreeRules

variable {f g : Forest} {d d' : Document} {m : Match} {n p target root : NodeId}
  {before after roots left right : List NodeId} {applied : Applied}
  {build : Forest → Match → Forest × List NodeId}

namespace Forest

/-! ### What is in a callback's hands -/

/-- One thing that a callback may do to a forest: an operation on nodes, the replacement of another
match's target, or something about the records of changes, by which no node changes its text or its
place. -/
inductive Handling : Forest → Forest → Prop
  | step {f g : Forest} (h : Step f g) : Handling f g
  | observe (f : Forest) (log : LogId) (n : NodeId) : Handling f (f.observe log n)
  | notify (f : Forest) (n : NodeId) (kind : ChangeKind) : Handling f (f.notify n kind)
  | clearChanges (f : Forest) (log : LogId) : Handling f (f.clearChanges log)

/-- Things done one after another. -/
def Handlings : Forest → Forest → Prop := Relation.ReflTransGen Handling

theorem Handling.wellFormed (h : Handling f g) (hf : f.WellFormed) :
    g.WellFormed ∧ f.size ≤ g.size := by
  cases h with
  | step h => exact h.wellFormed hf
  | observe log n =>
      refine ⟨hf.congr (parent_modify ?_ f n) (children_modify ?_ f n), ?_⟩
      · intro node
        rfl
      · intro node
        rfl
      · exact Nat.le_of_eq (size_modify f n _).symm
  | notify n kind =>
      have hgrows : f.Grows (f.notify n kind) := hf.grows_of_nodes_eq rfl
      exact ⟨hgrows.wellFormed, hgrows.keeps.size_le⟩
  | clearChanges log =>
      have hgrows : f.Grows (f.clearChanges log) := hf.grows_of_nodes_eq rfl
      exact ⟨hgrows.wellFormed, hgrows.keeps.size_le⟩

theorem Handlings.wellFormed (h : Handlings f g) (hf : f.WellFormed) :
    g.WellFormed ∧ f.size ≤ g.size :=
  wellFormed_of_steps (fun _ _ => Handling.wellFormed) h hf

/-- Those of some nodes that are children of `p`. -/
def childrenAmong (f : Forest) (p : NodeId) (ns : List NodeId) : List NodeId :=
  ns.filter (f.parent · == some p)

end Forest

namespace Replacement

/-! ### Answers that are accepted -/

theorem of_applyCallback_changed (hbuild : build d.forest m = (g, roots))
    (h : applyCallback d m build = (d', .ok applied)) (hchanged : applied.changed = true) :
    firstFault? ⟨g, d.root⟩ (placeOf d.forest m.target) [] roots = none ∧
      (d.forest.parent m.target = none → roots.length = 1) ∧ applied.inserted = roots ∧
      ∃ moved, d' = settle ⟨release g m.target roots, d.root⟩ (placeOf d.forest m.target)
        m.target moved roots := by
  rcases applyCallback_cases hbuild with heq | ⟨e, -, heq⟩ | ⟨hfault, hcount, moved, heq⟩
  · rw [heq] at h
    cases h
    cases hchanged
  · rw [heq] at h
    cases h
  · rw [heq] at h
    cases h
    exact ⟨hfault, hcount, rfl, moved, rfl⟩

/-! ### The target taken out -/

theorem release_of_adopted (hf : f.WellFormed) (hroot : root ∈ roots)
    (hwithin : f.Within target root) : release f target roots = f := by
  have hadopted : roots.any (f.encloses · target) = true :=
    List.any_eq_true.mpr ⟨root, hroot, hf.encloses_iff.mpr hwithin⟩
  rw [release, if_pos hadopted]

theorem release_of_not_adopted (hf : f.WellFormed)
    (hnot : ∀ root ∈ roots, ¬ f.Within target root) :
    release f target roots = f.detach target := by
  have hadopted : ¬ roots.any (f.encloses · target) = true := by
    rw [List.any_eq_true]
    rintro ⟨root, hroot, hencloses⟩
    exact hnot root hroot (hf.encloses_iff.mp hencloses)
  rw [release, if_neg hadopted]

/-- Either a root encloses the target, and nothing is done, or none does, and the target is
detached. -/
theorem release_cases (hf : f.WellFormed) (target : NodeId) (roots : List NodeId) :
    (∃ root ∈ roots, f.Within target root) ∧ release f target roots = f ∨
      (∀ root ∈ roots, ¬ f.Within target root) ∧ release f target roots = f.detach target := by
  by_cases hadopted : ∃ root ∈ roots, f.Within target root
  · obtain ⟨root, hroot, hwithin⟩ := hadopted
    exact Or.inl ⟨⟨root, hroot, hwithin⟩, release_of_adopted hf hroot hwithin⟩
  · have hnot : ∀ root ∈ roots, ¬ f.Within target root :=
      fun root hroot hwithin => hadopted ⟨root, hroot, hwithin⟩
    exact Or.inr ⟨hnot, release_of_not_adopted hf hnot⟩

theorem parent_release (hn : f.parent n = none) (target : NodeId) (roots : List NodeId) :
    (release f target roots).parent n = none := by
  unfold release
  split
  · exact hn
  · rw [Forest.parent_detach, hn]
    exact ite_self none

theorem within_of_within_release (h : (release f target roots).Within n p) : f.Within n p := by
  unfold release at h
  split at h
  · exact h
  · exact Relation.ReflTransGen.mono (fun _ _ => Forest.up_of_up_detach) _ _ h

theorem loose_release (hloose : f.Loose p roots) (target : NodeId) :
    (release f target roots).Loose p roots where
  nodup := hloose.nodup
  lt_size := by
    intro root hroot
    rw [size_release]
    exact hloose.lt_size root hroot
  top := by
    intro root hroot
    exact parent_release (hloose.top root hroot) target roots
  apart := by
    intro root hroot hwithin
    exact hloose.apart root hroot (within_of_within_release hwithin)

/-- A target that a root has taken along is no longer a child of its former parent. -/
theorem children_release (hf : f.WellFormed) (hloose : f.Loose p roots) :
    (release f target roots).children p = (f.children p).filter (· != target) := by
  rcases release_cases hf target roots with ⟨⟨root, hroot, hwithin⟩, heq⟩ | ⟨-, heq⟩
  · rw [heq, Forest.filter_ne_of_not_mem fun hmem => ?_]
    have hp := (hf.parent_iff target p).mpr hmem
    rcases Forest.within_cases hwithin with rfl | ⟨q, hq, hwithin⟩
    · exact absurd ((hloose.top target hroot).symm.trans hp) (by simp)
    · obtain rfl := Option.some.inj (hq.symm.trans hp)
      exact hloose.apart root hroot hwithin
  · rw [heq, Forest.children_detach hf]

/-- Taking out a target that no root encloses changes none of the roots' trees. -/
theorem tree_release (hf : f.WellFormed) (hroot : root ∈ roots) :
    (release f target roots).tree root = f.tree root := by
  rcases release_cases hf target roots with ⟨-, heq⟩ | ⟨hnot, heq⟩
  · rw [heq]
  · rw [heq]
    refine hf.tree_congr (hf.detach target) root (fun n _ => Forest.value_detach f target n)
      fun n hn => ?_
    rw [Forest.children_detach hf, Forest.filter_ne_of_not_mem fun hmem => ?_]
    exact hnot root hroot (Forest.Within.of_parent ((hf.parent_iff target n).mpr hmem) hn)

/-! ### Put into the target's place -/

/-- **The answer hangs beneath the target's parent**, at the position that the target had before the
callback was asked. -/
theorem hung_of_changed (hf : d.forest.WellFormed) (hp : d.forest.parent m.target = some p)
    (hbuild : build d.forest m = (g, roots)) (hhandled : d.forest.Handlings g)
    (hroots : ∀ root ∈ roots, root < g.size)
    (h : (callback build).apply d m = (d', .ok applied)) (hchanged : applied.changed = true) :
    g.Loose p roots ∧ applied.inserted = roots ∧
      Forest.Hung (release g m.target roots) d'.forest p
        (((g.children p).filter (· != m.target)).take ((d.forest.index m.target).getD 0)) roots
        (((g.children p).filter (· != m.target)).drop ((d.forest.index m.target).getD 0)) := by
  obtain ⟨hg, hle⟩ := hhandled.wellFormed hf
  have hplace : placeOf d.forest m.target = ⟨some p, (d.forest.index m.target).getD 0⟩ := by
    rw [placeOf, hp]
  rw [apply_callback (Or.inr ⟨p, hp⟩)] at h
  obtain ⟨hfault, -, hinserted, moved, rfl⟩ := of_applyCallback_changed hbuild h hchanged
  rw [firstFault?_eq_none_iff, hplace] at hfault
  have hloose : g.Loose p roots := by
    refine ⟨hfault.1, hroots, fun root hroot => (hfault.2 root hroot).1, fun root hroot => ?_⟩
    have hencloses := (hfault.2 root hroot).2.2.2 p rfl
    exact fun hwithin => Bool.false_ne_true (hencloses.symm.trans (hg.encloses_iff.mpr hwithin))
  have hlt : p < (release g m.target roots).size := by
    rw [size_release]
    exact Nat.lt_of_lt_of_le (hf.parent_lt_size hp) hle
  have hhung := (loose_release hloose m.target).hung_insertAll_at (wellFormed_release hg _ _) hlt
    ((d.forest.index m.target).getD 0)
  rw [children_release hg hloose] at hhung
  rw [hplace]
  exact ⟨hloose, hinserted, hhung.of_nodes_eq (nodes_report _ _ _ _ _)⟩

/-- **The answer for the place of the root is a single node**, which becomes the root. -/
theorem root_of_changed (hp : d.forest.parent m.target = none)
    (hbuild : build d.forest m = (g, roots))
    (h : (callback build).apply d m = (d', .ok applied)) (hchanged : applied.changed = true) :
    d.root = m.target ∧ applied.inserted = roots ∧ ∃ root, roots = [root] ∧ d'.root = root ∧
      g.parent root = none ∧ d'.forest.nodes = (release g m.target roots).nodes := by
  have hplace : HasPlace d m := by
    by_contra hnot
    rw [apply_of_not_hasPlace hnot] at h
    cases h
  have hroot : d.root = m.target := by
    rcases hplace with hroot | ⟨p, hp'⟩
    · exact hroot
    · rw [hp] at hp'
      cases hp'
  rw [apply_callback hplace] at h
  obtain ⟨hfault, hcount, hinserted, moved, rfl⟩ := of_applyCallback_changed hbuild h hchanged
  obtain ⟨root, rfl⟩ := List.length_eq_one_iff.mp (hcount hp)
  have hput : placeOf d.forest m.target = ⟨none, (d.forest.index m.target).getD 0⟩ := by
    rw [placeOf, hp]
  rw [firstFault?_eq_none_iff, List.forall_mem_singleton] at hfault
  rw [hput]
  exact ⟨hroot, hinserted, root, rfl, rfl, hfault.2.1, nodes_report _ _ _ _ _⟩

/-- **Each node of an answer looks as the callback has left it.** -/
theorem tree_of_changed (hf : d.forest.WellFormed) (hbuild : build d.forest m = (g, roots))
    (hhandled : d.forest.Handlings g) (hroots : ∀ root ∈ roots, root < g.size)
    (h : (callback build).apply d m = (d', .ok applied)) (hchanged : applied.changed = true) :
    ∀ root ∈ roots, d'.forest.tree root = g.tree root := by
  have hg := (hhandled.wellFormed hf).1
  intro root hroot
  have hreleased : (release g m.target roots).tree root = g.tree root := tree_release hg hroot
  rw [← hreleased]
  cases hp : d.forest.parent m.target with
  | some p =>
      obtain ⟨hloose, -, hhung⟩ := hung_of_changed hf hp hbuild hhandled hroots h hchanged
      exact hhung.tree_eq (wellFormed_release hg _ _)
        ((loose_release hloose m.target).apart root hroot)
  | none =>
      obtain ⟨-, -, top, rfl, -, htop, hnodes⟩ := root_of_changed hp hbuild h hchanged
      exact (wellFormed_release hg _ _).tree_of_nodes_eq hnodes root

/-- **No node of an answer is lost.**  When a callback has changed the document, all that it has
answered with stands side by side where the target was, in the order of the answer, among the
children that the target's parent had when the callback returned; each looks as it did then.  The
target stays with a node that encloses it and is on its own otherwise.  In the place of a root
without a parent there is a single node, the new root. -/
theorem callback_loses_no_root (hf : d.forest.WellFormed) (hbuild : build d.forest m = (g, roots))
    (hhandled : d.forest.Handlings g) (hroots : ∀ root ∈ roots, root < g.size)
    (h : (callback build).apply d m = (d', .ok applied)) (hchanged : applied.changed = true) :
    applied.inserted = roots ∧ (∀ root ∈ roots, d'.forest.tree root = g.tree root) ∧
      (∀ p, d.forest.parent m.target = some p →
        (∀ root ∈ roots, d'.forest.parent root = some p) ∧
        (∃ before after, d'.forest.children p = before ++ roots ++ after ∧
          before ++ after = (g.children p).filter (· != m.target)) ∧
        (∀ root ∈ roots, m.target ∈ g.preorder root → m.target ∈ d'.forest.preorder root) ∧
        ((∀ root ∈ roots, m.target ∉ g.preorder root) → d'.forest.parent m.target = none)) ∧
      (d.forest.parent m.target = none → d.root = m.target ∧
        ∃ root, roots = [root] ∧ d'.root = root ∧ d'.forest.parent root = none) := by
  have hg := (hhandled.wellFormed hf).1
  have htrees := tree_of_changed hf hbuild hhandled hroots h hchanged
  cases hp : d.forest.parent m.target with
  | some p =>
      obtain ⟨hloose, hinserted, hhung⟩ := hung_of_changed hf hp hbuild hhandled hroots h hchanged
      refine ⟨hinserted, htrees, fun q hq => ?_, fun hnone => absurd hnone (by simp)⟩
      obtain rfl := Option.some.inj hq
      refine ⟨fun root hroot => ?_, ⟨_, _, hhung.children_self, List.take_append_drop _ _⟩,
        fun root hroot hin => ?_, fun hnot => ?_⟩
      · rw [hhung.parent, if_pos hroot]
      · rw [hg.mem_preorder_iff] at hin
        rw [hhung.wellFormed.mem_preorder_iff]
        refine hhung.within (loose_release hloose m.target).top ?_
        rwa [release_of_adopted hg hroot hin]
      · have hoff : ∀ root ∈ roots, ¬ g.Within m.target root :=
          fun root hroot hwithin => hnot root hroot (hg.mem_preorder_iff.mpr hwithin)
        have hmem : m.target ∉ roots := fun hroot => hoff m.target hroot (Forest.Within.refl _)
        rw [hhung.parent, if_neg hmem, release_of_not_adopted hg hoff, Forest.parent_detach,
          if_pos rfl]
  | none =>
      obtain ⟨hroot, hinserted, root, rfl, hroot', htop, hnodes⟩ :=
        root_of_changed hp hbuild h hchanged
      refine ⟨hinserted, htrees, fun q hq => absurd hq (by simp),
        fun _ => ⟨hroot, root, rfl, hroot', ?_⟩⟩
      rw [Forest.parent, hnodes]
      exact parent_release htop m.target [root]

/-- A leaf between two others. -/
def threeLeaves : Document := Document.ofTree (.node "r" [.node "b" [], .node "a" [], .node "c" []])

/-- The match of the leaf in the middle. -/
def middleLeaf : Match := ⟨2, 2, [2], [("x", .single 2)]⟩

/-- A callback that answers with a new node that has taken one of the leaves along. -/
def adopt (leaf : NodeId) (f : Forest) (m : Match) : Forest × List NodeId :=
  Recipe.buildAll m f [.fresh "w" [.nodes [leaf]]]

theorem wellFormed_threeLeaves : threeLeaves.forest.WellFormed := Forest.wellFormed_ofTree _

theorem handlings_adopt {leaf : NodeId} (hleaf : leaf < f.size) (m : Match) :
    f.Handlings (adopt leaf f m).1 := by
  have hparent : (adopt leaf f m).1 = (f.newParent "w" [leaf]).1 := rfl
  rw [hparent]
  exact .single (.step (.operation (.newParent "w" (by simpa using hleaf))))

/-- The new node takes the target along and stands where that stood. -/
theorem callback_loses_no_root_middleLeaf :
    ∃ d' applied, (callback (adopt 2)).apply threeLeaves middleLeaf = (d', .ok applied) ∧
      applied.inserted = [4] ∧ d'.forest.parent 4 = some 0 ∧ 2 ∈ d'.forest.preorder 4 ∧
      ∃ before after, d'.forest.children 0 = before ++ [4] ++ after ∧ before ++ after = [1, 3] := by
  have hbuild : adopt 2 threeLeaves.forest middleLeaf =
      ((adopt 2 threeLeaves.forest middleLeaf).1, [4]) := Prod.ext rfl (by decide +kernel)
  have happly : (callback (adopt 2)).apply threeLeaves middleLeaf = (_, .ok ⟨true, [4]⟩) :=
    Prod.ext rfl (by decide +kernel)
  obtain ⟨hinserted, -, hplace, -⟩ := callback_loses_no_root wellFormed_threeLeaves hbuild
    (handlings_adopt (by decide +kernel) _) (by decide +kernel) happly rfl
  obtain ⟨hparent, ⟨before, after, hchildren, hothers⟩, hin, -⟩ := hplace 0 (by decide +kernel)
  exact ⟨_, _, happly, hinserted, hparent 4 List.mem_cons_self,
    hin 4 List.mem_cons_self (by decide +kernel), before, after, hchildren,
    hothers.trans (by decide +kernel)⟩

/-! ### The place among the siblings -/

/-- What a callback has left of the children of the target's parent, if it has added none and kept
their order, are those that stood before the target and those that stood behind it. -/
theorem filter_children_of_kept (hf : f.WellFormed) (hg : g.WellFormed)
    (hsplit : f.children p = before ++ target :: after)
    (hadded : ∀ c ∈ g.children p, c ∈ f.children p)
    (horder : (g.childrenAmong p before ++ g.childrenAmong p after).Sublist (g.children p)) :
    (g.children p).filter (· != target) =
      g.childrenAmong p before ++ g.childrenAmong p after := by
  have hnodup := hf.nodup p
  rw [hsplit, List.nodup_append, List.nodup_cons] at hnodup
  obtain ⟨-, ⟨hafter, -⟩, hbefore⟩ := hnodup
  have hnot : target ∉ g.childrenAmong p before ++ g.childrenAmong p after := by
    rw [List.mem_append]
    rintro (hmem | hmem)
    · exact hbefore target (List.mem_filter.mp hmem).1 target List.mem_cons_self rfl
    · exact hafter (List.mem_filter.mp hmem).1
  have hsublist := horder.filter (· != target)
  rw [Forest.filter_ne_of_not_mem hnot] at hsublist
  refine (hsublist.eq_of_length_le ?_).symm
  refine (List.subperm_of_subset ((hg.nodup p).filter _) fun c hc => ?_).length_le
  rw [List.mem_filter, bne_iff_ne] at hc
  have hparent := (hg.parent_iff c p).mpr hc.1
  have hold := hadded c hc.1
  rw [hsplit, List.mem_append, List.mem_cons] at hold
  rw [List.mem_append, Forest.childrenAmong, Forest.childrenAmong, List.mem_filter,
    List.mem_filter, hparent]
  rcases hold with hold | rfl | hold
  · exact Or.inl ⟨hold, by simp⟩
  · exact absurd rfl hc.2
  · exact Or.inr ⟨hold, by simp⟩

/-- Nodes that are put in at a position come between two parts of a list exactly if the first part
reaches there, or else it makes no difference. -/
theorem split_eq_iff {k : Nat} (hle : left.length ≤ k) (hapart : ∀ root ∈ roots, root ∉ right) :
    (left ++ right).take k ++ roots ++ (left ++ right).drop k = left ++ roots ++ right ↔
      left.length = k ∨ right = [] ∨ roots = [] := by
  constructor
  · intro heq
    rcases right with - | ⟨c, right⟩
    · exact Or.inr (Or.inl rfl)
    rcases roots with - | ⟨root, roots⟩
    · exact Or.inr (Or.inr rfl)
    refine Or.inl ?_
    by_contra hne
    -- the first node put in would stand where the first of the second part stands
    obtain ⟨j, hj⟩ : ∃ j, k - left.length = j + 1 := ⟨k - left.length - 1, by omega⟩
    rw [List.take_append, List.take_of_length_le hle, hj, List.take_succ_cons, List.append_assoc,
      List.append_assoc, List.append_assoc, List.append_cancel_left_eq] at heq
    have hhead : c = root := (List.cons.inj heq).1
    exact hapart root List.mem_cons_self (hhead ▸ List.mem_cons_self)
  · rintro (rfl | rfl | rfl)
    · rw [List.take_left, List.drop_left]
    · rw [List.append_nil, List.take_of_length_le hle, List.drop_eq_nil_of_le hle]
    · rw [List.append_nil, List.append_nil, List.take_append_drop]

/-- **The answer stands between the siblings that stood before the target and those that stood
behind it** exactly if none of the former has been taken away, or none of the latter is left, or the
answer is empty.  In any case it stands at the position that the target had among all its
siblings. -/
theorem callback_in_place_iff (hf : d.forest.WellFormed)
    (hsplit : d.forest.children p = before ++ m.target :: after)
    (hbuild : build d.forest m = (g, roots)) (hhandled : d.forest.Handlings g)
    (hroots : ∀ root ∈ roots, root < g.size)
    (h : (callback build).apply d m = (d', .ok applied)) (hchanged : applied.changed = true)
    (hleft : g.childrenAmong p before = left) (hright : g.childrenAmong p after = right)
    (hadded : ∀ c ∈ g.children p, c ∈ d.forest.children p)
    (horder : (left ++ right).Sublist (g.children p)) :
    applied.inserted = roots ∧
      d'.forest.children p =
        (left ++ right).take before.length ++ roots ++ (left ++ right).drop before.length ∧
      (d'.forest.children p = left ++ roots ++ right ↔
        left = before ∨ right = [] ∨ roots = []) := by
  subst hleft hright
  have hg := (hhandled.wellFormed hf).1
  have hp := hf.parent_of_split hsplit
  obtain ⟨hloose, hinserted, hhung⟩ := hung_of_changed hf hp hbuild hhandled hroots h hchanged
  have hchildren := hhung.children_self
  rw [filter_children_of_kept hf hg hsplit hadded horder, (hf.index_of_split hsplit).1,
    Option.getD_some] at hchildren
  have hsub : (g.childrenAmong p before).Sublist before := List.filter_sublist
  have hapart : ∀ root ∈ roots, root ∉ g.childrenAmong p after := by
    intro root hroot hmem
    have hparent := (List.mem_filter.mp hmem).2
    rw [hloose.top root hroot] at hparent
    simp at hparent
  refine ⟨hinserted, hchildren, ?_⟩
  rw [hchildren, split_eq_iff hsub.length_le hapart]
  refine or_congr_left ⟨hsub.eq_of_length, ?_⟩
  intro heq
  rw [heq]

/-- The leaf behind the target is taken along, and the one in front of it stays where it is. -/
theorem callback_in_place_iff_middleLeaf :
    ∃ d' applied, (callback (adopt 3)).apply threeLeaves middleLeaf = (d', .ok applied) ∧
      applied.inserted = [4] ∧ d'.forest.children 0 = [1] ++ [4] ++ [] := by
  have hbuild : adopt 3 threeLeaves.forest middleLeaf =
      ((adopt 3 threeLeaves.forest middleLeaf).1, [4]) := Prod.ext rfl (by decide +kernel)
  have happly : (callback (adopt 3)).apply threeLeaves middleLeaf = (_, .ok ⟨true, [4]⟩) :=
    Prod.ext rfl (by decide +kernel)
  have hsplit : threeLeaves.forest.children 0 = [1] ++ middleLeaf.target :: [3] := by
    decide +kernel
  obtain ⟨hinserted, -, hiff⟩ := callback_in_place_iff wellFormed_threeLeaves hsplit hbuild
    (handlings_adopt (by decide +kernel) _) (by decide +kernel) happly rfl
    (show _ = [1] by decide +kernel) (show _ = [] by decide +kernel) (by decide +kernel)
    (by decide +kernel)
  exact ⟨_, _, happly, hinserted, hiff.mpr (Or.inl rfl)⟩

open CompiledPattern

/-- **An answer does not always stand where the target stood**: one that has taken along the leaf in
front of the target comes to stand behind the leaf that stood behind it. -/
theorem adopted_leaf_shifts_answer :
    ¬ ∀ (text : String) (settings limits : Settings) (pattern : CompiledPattern)
      (predicates : Predicates) (d d' : Document) (m : Match)
      (build : Forest → Match → Forest × List NodeId) (g : Forest) (p : NodeId)
      (before after left right roots : List NodeId) (applied : Applied),
      CompiledPattern.read text settings = .ok pattern → d.forest.WellFormed →
      m ∈ pattern.findAll d.forest predicates limits d.root →
      d.forest.children p = before ++ m.target :: after → build d.forest m = (g, roots) →
      d.forest.Handlings g → (∀ root ∈ roots, root < g.size) →
      (callback build).apply d m = (d', .ok applied) → applied.changed = true →
      g.childrenAmong p before = left → g.childrenAmong p after = right →
      (∀ c ∈ g.children p, c ∈ d.forest.children p) →
      (left ++ right).Sublist (g.children p) →
      d'.forest.children p = left ++ applied.inserted ++ right := by
  intro h
  have hfound : middleLeaf ∈ alikeSiblings.findAll threeLeaves.forest {} {} threeLeaves.root := by
    rw [findAll_eq_take read_alikeSiblings wellFormed_threeLeaves]
    decide +kernel
  have hbuild : adopt 1 threeLeaves.forest middleLeaf =
      ((adopt 1 threeLeaves.forest middleLeaf).1, [4]) := Prod.ext rfl (by decide +kernel)
  have happly : (callback (adopt 1)).apply threeLeaves middleLeaf = (_, .ok ⟨true, [4]⟩) :=
    Prod.ext rfl (by decide +kernel)
  have hchildren := h _ _ _ _ _ _ _ _ _ _ 0 [1] [3] [] [3] _ _ read_alikeSiblings
    wellFormed_threeLeaves hfound (by decide +kernel) hbuild
    (handlings_adopt (by decide +kernel) _) (by decide +kernel) happly rfl (by decide +kernel)
    (by decide +kernel) (by decide +kernel) (by decide +kernel)
  have hactual : ((callback (adopt 1)).apply threeLeaves middleLeaf).1.forest.children 0 =
      [3, 4] := by
    decide +kernel
  exact absurd (hactual.symm.trans hchildren) (by decide)

end Replacement

end TreeRules
