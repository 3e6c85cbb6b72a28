/-
How a template comes into the target's place.

The roots of the instance stand among the children of the target's parent exactly where the target
stood; no other node outside the target's subtree gets or loses a child.  If the target is the root
of the document, there is one such root and it becomes the document's.  What the roots look like is
the template's expansion, under the condition that it takes no used node apart.
-/
import TreeRules.Proofs.Rule.Replacement
import TreeRules.Proofs.Template.Expansion

namespace TreeRules

namespace Forest

variable {f g h : Forest} {n p : NodeId} {before roots after : List NodeId}

theorem WellFormed.parent_of_split (hf : f.WellFormed)
    (hsplit : f.children p = before ++ n :: after) : f.parent n = some p := by
  rw [hf.parent_iff, hsplit]
  exact List.mem_append_right _ List.mem_cons_self

/-- The position of a child, and what is left of the list without it. -/
theorem WellFormed.index_of_split (hf : f.WellFormed)
    (hsplit : f.children p = before ++ n :: after) :
    f.index n = some before.length ∧ (f.children p).filter (· != n) = before ++ after := by
  have hp := hf.parent_of_split hsplit
  have hnodup := hf.nodup p
  rw [hsplit, List.nodup_append, List.nodup_cons] at hnodup
  obtain ⟨-, ⟨hafter, -⟩, hbefore⟩ := hnodup
  have hnot : n ∉ before := fun hmem => hbefore n hmem n List.mem_cons_self rfl
  constructor
  · have hindex : f.index n = (f.children p).idxOf? n := by
      rw [index, hp]
      rfl
    rw [hindex, hsplit, List.idxOf?_eq_some_iff]
    refine ⟨by simp, by simp, fun j hj => ?_⟩
    rw [List.getElem_append_left hj]
    intro heq
    exact hnot (heq ▸ List.getElem_mem hj)
  · rw [hsplit, List.filter_append, List.filter_cons, filter_ne_of_not_mem hnot,
      filter_ne_of_not_mem hafter]
    simp

/-- What is not about nodes makes no difference. -/
theorem Hung.of_nodes_eq (hg : Hung f g p before roots after) (hnodes : h.nodes = g.nodes) :
    Hung f h p before roots after where
  wellFormed := (hg.wellFormed.grows_of_nodes_eq hnodes).wellFormed
  size := by rw [Forest.size, hnodes]; exact hg.size
  value := by intro n; rw [Forest.value, hnodes]; exact hg.value n
  parent := by intro n; rw [Forest.parent, hnodes]; exact hg.parent n
  children_self := by rw [Forest.children, hnodes]; exact hg.children_self
  children := by intro n hn; rw [Forest.children, hnodes]; exact hg.children n hn

/-- What stands in front of the next position when a node has been put in at one, and what stands
behind it. -/
theorem split_at_succ (l : List NodeId) (index : Nat) (r : NodeId) :
    (l.take index ++ [r] ++ l.drop index).take (index + 1) = l.take index ++ [r] ∧
      (l.take index ++ [r] ++ l.drop index).drop (index + 1) = l.drop index := by
  rcases Nat.le_total index l.length with hle | hle
  · have hlength : (l.take index ++ [r]).length = index + 1 := by
      rw [List.length_append, List.length_take, Nat.min_eq_left hle, List.length_singleton]
    exact ⟨List.take_left' hlength, List.drop_left' hlength⟩
  · have hlength : (l ++ [r]).length ≤ index + 1 := by
      rw [List.length_append, List.length_singleton]
      exact Nat.succ_le_succ hle
    rw [List.take_of_length_le hle, List.drop_eq_nil_of_le hle, List.append_nil]
    exact ⟨List.take_of_length_le hlength, List.drop_eq_nil_of_le hlength⟩

/-- **Loose nodes are put in place one after another**, at any position. -/
theorem Loose.hung_insertAll_at (hf : f.WellFormed) (hp : p < f.size) (hloose : f.Loose p roots)
    (index : Nat) :
    Hung f (Replacement.insertAll f p index roots) p ((f.children p).take index) roots
      ((f.children p).drop index) := by
  induction roots generalizing f index with
  | nil => exact Hung.nil hf (List.take_append_drop index _).symm
  | cons r roots ih =>
      have hfirst := hloose.hung_insertChild_at hf hp index
      have hrest := ih hfirst.wellFormed (hfirst.size.symm ▸ hp) (hloose.tail hfirst) (index + 1)
      obtain ⟨hbefore, hafter⟩ := split_at_succ (f.children p) index r
      rw [hfirst.children_self, hbefore, hafter] at hrest
      exact hfirst.cons hrest

theorem Loose.hung_insertAll (hf : f.WellFormed) (hp : p < f.size) (hloose : f.Loose p roots)
    (hchildren : f.children p = before ++ after) :
    Hung f (Replacement.insertAll f p before.length roots) p before roots after := by
  have hat := hloose.hung_insertAll_at hf hp before.length
  rwa [hchildren, List.take_left, List.drop_left] at hat

end Forest

theorem Template.length_instantiate (t : Template) (f : Forest) (m : Match) :
    (t.instantiate f m).2.length = t.rootCount m := by
  rw [instantiate, rootCount]
  generalize ({ forest := f } : Instance) = b
  induction t.roots generalizing b with
  | nil => rfl
  | cons first others ih =>
      rw [Instance.nodes, List.foldr_cons, List.length_append, ih]
      congr 1
      rcases first with ⟨text | ⟨name, _⟩ | _, beneath⟩
      · rw [Instance.node]; rfl
      · rw [Instance.node]; exact Instance.length_useAll _ _
      · rw [Instance.node]; rfl

namespace Replacement

variable {d : Document} {f g : Forest} {m : Match} {p : NodeId} {before roots after : List NodeId}

/-- In the place of the target, between the children `before` and `after` of its parent, stand
other roots. -/
structure Spliced (f g : Forest) (m : Match) (p : NodeId) (before roots after : List NodeId) :
    Prop where
  confined : f.Confined g m.target
  free : ∀ r ∈ roots, f.Free g m.target r
  children_self : g.children p = before ++ roots ++ after
  children : ∀ n, n < f.size → n ≠ p → ¬ f.Within n m.target → g.children n = f.children n

/-- The parent of a node does not lie within it. -/
theorem not_within_of_parent (hf : f.WellFormed) {n : NodeId} (hp : f.parent n = some p) :
    ¬ f.Within p n := by
  intro hw
  exact hf.acyclic n (Relation.TransGen.head' hp hw)

/-- An instance that is built after the target has been taken out. -/
theorem adds_instantiate (hf : f.WellFormed) (ht : m.target < f.size) (t : Template) :
    Instance.Adds m (· ∈ t.uses m) { forest := f.detach m.target }
      (t.instantiate (f.detach m.target) m).1 (t.instantiate (f.detach m.target) m).2 := by
  refine Instance.adds_nodes t.roots (hf.detach m.target) ?_ fun n hn => hn
  show m.target < (f.detach m.target).size
  rwa [Forest.size_detach]

/-- What lies outside the target's subtree loses no child but the target. -/
theorem children_instantiate (hf : f.WellFormed) (ht : m.target < f.size) (t : Template)
    {n : NodeId} (hn : n < f.size) (hout : ¬ f.Within n m.target) :
    (t.instantiate (f.detach m.target) m).1.forest.children n =
      (f.children n).filter (· != m.target) := by
  have hadds := adds_instantiate hf ht t
  have hn' : n < (f.detach m.target).size := by rwa [Forest.size_detach]
  rw [hadds.children n hn', ← Forest.children_detach hf, List.filter_eq_self]
  intro c hc
  rw [decide_eq_true_eq]
  intro hmove
  have hup : (f.detach m.target).parent c = some n :=
    ((hf.detach m.target).parent_iff c n).mpr hc
  rcases Forest.within_cases (hadds.moves c hmove).2 with rfl | ⟨q, hq, hwithin⟩
  · rw [Forest.parent_detach, if_pos rfl] at hup
    exact absurd hup (by simp)
  · obtain rfl := Option.some.inj (hq.symm.trans hup)
    exact hout (Relation.ReflTransGen.mono (fun _ _ => Forest.up_of_up_detach) q _ hwithin)

/-- The roots of an instance can be hung where the target was. -/
theorem loose_instantiate (hf : f.WellFormed) (hp : f.parent m.target = some p) (t : Template) :
    (t.instantiate (f.detach m.target) m).1.forest.Loose p
      (t.instantiate (f.detach m.target) m).2 := by
  have ht := Forest.lt_size_of_parent hp
  have hbuilt := t.built_instantiate_detach hf ht
  have hadds := adds_instantiate hf ht t
  have hout := not_within_of_parent hf hp
  have hlt := hf.parent_lt_size hp
  refine ⟨hadds.nodup, hadds.lt_size, hadds.top, fun r hr hw => ?_⟩
  have hpr := (hbuilt.confined.keeps.within_iff hf (fun _ _ => Forest.Within.of_parent) hlt
    hout).mp hw
  have hrt := (hbuilt.free r hr).within (hf.lt_size_of_within hlt hpr)
  exact hout (hpr.trans hrt)

theorem applyTemplate_eq (hp : d.forest.parent m.target = some p) (t : Template) :
    applyTemplate d m t =
      let b := t.instantiate (d.forest.detach m.target) m
      let g := insertAll b.1.forest p ((d.forest.index m.target).getD 0) b.2
      ({ d with forest := report g m.target b.1.moved b.2 (some p) },
        .ok { changed := true, inserted := b.2 }) := by
  have haccepted : ¬ ((placeOf d.forest m.target).parent.isNone && t.rootCount m != 1) = true := by
    rw [placeOf, hp]
    exact Bool.false_ne_true
  have hplace : placeOf d.forest m.target = ⟨some p, (d.forest.index m.target).getD 0⟩ := by
    rw [placeOf, hp]
  unfold applyTemplate
  dsimp only
  rw [if_neg haccepted, hplace]
  rfl

/-- **A template's instance stands where the target stood.** -/
theorem spliced_applyTemplate (hf : d.forest.WellFormed)
    (hsplit : d.forest.children p = before ++ m.target :: after) (t : Template) :
    ∃ d' roots, applyTemplate d m t = (d', .ok { changed := true, inserted := roots }) ∧
      d'.root = d.root ∧ Spliced d.forest d'.forest m p before roots after ∧
      ∀ tree, Instance.Ready m (· ∈ t.uses m) tree (d.forest.detach m.target) →
        roots.map d'.forest.tree = t.expand m tree := by
  have hp := hf.parent_of_split hsplit
  have ht := Forest.lt_size_of_parent hp
  have hlt := hf.parent_lt_size hp
  have hout := not_within_of_parent hf hp
  obtain ⟨hindex, hfilter⟩ := hf.index_of_split hsplit
  have hadds := adds_instantiate hf ht t
  have hchildren := children_instantiate hf ht t hlt hout
  rw [hfilter] at hchildren
  have hhung := ((loose_instantiate hf hp t).hung_insertAll hadds.wellFormed
    (Nat.lt_of_lt_of_le hlt (Nat.le_trans (Nat.le_of_eq (Forest.size_detach _ _).symm)
      hadds.size_le)) hchildren)
  have hreport := hhung.of_nodes_eq (nodes_report _ m.target
    (t.instantiate (d.forest.detach m.target) m).1.moved
    (t.instantiate (d.forest.detach m.target) m).2 (some p))
  have hconfined := confined_applyTemplate hf ht t
  rw [applyTemplate_eq hp, hindex] at hconfined ⊢
  refine ⟨_, _, rfl, rfl, ⟨hconfined, fun r hr => ?_, hreport.children_self,
    fun n hn hne hnot => ?_⟩, fun tree hready => ?_⟩
  · have hbuilt := t.built_instantiate_detach hf ht
    exact (hbuilt.free r hr).mono (Nat.le_of_eq hreport.size.symm)
  · rw [Option.getD_some, hreport.children n hne, children_instantiate hf ht t hn hnot,
      Forest.filter_ne_of_not_mem fun hmem => hne ?_]
    exact Option.some.inj (((hf.parent_iff _ n).mpr hmem).symm.trans hp)
  · have htrees := Instance.tree_nodes t.roots (b := { forest := d.forest.detach m.target })
      (hf.detach m.target) (by rwa [Forest.size_detach]) (fun n hn => hn) hready
    rw [Template.expand, ← htrees]
    refine List.map_congr_left fun r hr => ?_
    exact hreport.tree_eq hadds.wellFormed ((loose_instantiate hf hp t).apart r hr)

/-- **The root of a document is replaced by the one root of the instance.** -/
theorem applyTemplate_of_top (hf : d.forest.WellFormed) (ht : m.target < d.forest.size)
    (hp : d.forest.parent m.target = none) {t : Template} (hcount : t.rootCount m = 1) :
    ∃ d' root, applyTemplate d m t = (d', .ok { changed := true, inserted := [root] }) ∧
      d'.root = root ∧ d'.forest.WellFormed ∧ root < d'.forest.size ∧
      d'.forest.parent root = none ∧
      ∀ tree, Instance.Ready m (· ∈ t.uses m) tree d.forest →
        [d'.forest.tree root] = t.expand m tree := by
  have hdetach : d.forest.detach m.target = d.forest := Forest.detach_of_parent_none hp
  have hadds := adds_instantiate hf ht t
  have hlength := t.length_instantiate (d.forest.detach m.target) m
  rw [hdetach] at hadds hlength
  obtain ⟨root, hroot⟩ := List.length_eq_one_iff.mp (hlength.trans hcount)
  have hplace : placeOf d.forest m.target = ⟨none, (d.forest.index m.target).getD 0⟩ := by
    rw [placeOf, hp]
  have hnodes := nodes_report (t.instantiate d.forest m).1.forest m.target
    (t.instantiate d.forest m).1.moved [root] none
  have hreport := hadds.wellFormed.grows_of_nodes_eq hnodes
  rw [hroot] at hadds
  have hlt := hadds.lt_size root List.mem_cons_self
  refine ⟨⟨report (t.instantiate d.forest m).1.forest m.target
    (t.instantiate d.forest m).1.moved [root] none, root⟩, root, ?_, rfl, hreport.wellFormed,
    Nat.lt_of_lt_of_le hlt hreport.keeps.size_le, ?_, fun tree hready => ?_⟩
  · unfold applyTemplate
    dsimp only
    rw [hdetach, hroot, hplace, hcount]
    rfl
  · exact (hreport.keeps.parent root hlt id).trans (hadds.top root List.mem_cons_self)
  · have htrees := Instance.tree_nodes t.roots (b := { forest := d.forest }) hf ht
      (fun n hn => hn) hready
    have hinstance : (Instance.nodes m { forest := d.forest } t.roots).2 = [root] := hroot
    rw [Template.expand, ← htrees, hinstance, List.map_singleton]
    congr 1
    exact hadds.wellFormed.tree_of_nodes_eq hnodes root

/-! ### The place among the siblings -/

/-- **What a template puts in place stands exactly where the target stood.**  A target that has a
parent is replaced whatever the match binds: its siblings keep their order on both sides of what is
put in, whose parent is that of the target.  All that lies outside the target's subtree keeps its
text, its parent and, but for the parent itself, its children. -/
theorem apply_template_in_place (hf : d.forest.WellFormed)
    (hsplit : d.forest.children p = before ++ m.target :: after) (t : Template) :
    ∃ d' applied, (template t).apply d m = (d', .ok applied) ∧
      d'.forest.children p = before ++ applied.inserted ++ after ∧
      (∀ r ∈ applied.inserted, d'.forest.parent r = some p) ∧
      (d'.forest.value p = d.forest.value p ∧ d'.forest.parent p = d.forest.parent p) ∧
      ∀ n < d.forest.size, n ≠ p → n ∉ d.forest.preorder m.target →
        d'.forest.value n = d.forest.value n ∧ d'.forest.parent n = d.forest.parent n ∧
          d'.forest.children n = d.forest.children n := by
  have hp := hf.parent_of_split hsplit
  have hout := not_within_of_parent hf hp
  have hlt := hf.parent_lt_size hp
  obtain ⟨d', roots, happly, -, hspliced, -⟩ := spliced_applyTemplate hf hsplit t
  have hkeeps := hspliced.confined.keeps
  refine ⟨d', _, (apply_template_of_parent hp t).trans happly, hspliced.children_self,
    fun r hr => ?_, ⟨hkeeps.value p hlt hout, hkeeps.parent p hlt hout⟩, fun n hn hne hnot => ?_⟩
  · rw [hspliced.confined.wellFormed.parent_iff, hspliced.children_self]
    exact List.mem_append_left _ (List.mem_append_right _ hr)
  · rw [hf.mem_preorder_iff] at hnot
    exact ⟨hkeeps.value n hn hnot, hkeeps.parent n hn hnot, hspliced.children n hn hne hnot⟩

/-- The target's child comes before what is left of the target, and a clone of the parent, without
the target, behind both. -/
theorem apply_template_in_place_captures :
    let d := Document.ofTree (.node "r" [.node "a" [], .node "b" [.node "c" []], .node "d" []])
    let m : Match := ⟨2, 2, [2], [("child", .single 3), ("parent", .single 0)]⟩
    let t : Template := ⟨[.node (.capture "child" 0) [], .node (.literal "w") [.node .target []],
      .node (.capture "parent" 0) []]⟩
    ∃ d' applied, (template t).apply d m = (d', .ok applied) ∧ applied.inserted = [3, 5, 6] ∧
      d'.forest.children 0 = [1] ++ applied.inserted ++ [4] ∧
      (∀ r ∈ applied.inserted, d'.forest.parent r = some 0) ∧
      d'.forest.children 4 = d.forest.children 4 := by
  intro d m t
  have hsplit : d.forest.children 0 = [1] ++ m.target :: [4] := by decide +kernel
  obtain ⟨d', applied, happly, hchildren, hparent, -, hothers⟩ :=
    apply_template_in_place (Forest.wellFormed_ofTree _) hsplit t
  have hall : ((template t).apply d m).1.forest.children 0 = [1] ++ [3, 5, 6] ++ [4] := by
    decide +kernel
  rw [show (template t).apply d m = (d', .ok applied) from happly] at hall
  have hinserted : [1] ++ applied.inserted ++ [4] = [1] ++ [3, 5, 6] ++ [4] :=
    hchildren.symm.trans hall
  exact ⟨d', applied, happly, List.append_cancel_left (List.append_cancel_right hinserted),
    hchildren, hparent, (hothers 4 (by decide +kernel) (by decide) (by decide +kernel)).2.2⟩

end Replacement

end TreeRules
