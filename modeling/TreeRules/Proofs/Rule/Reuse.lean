/-
What a template does with the nodes of the match.

A template that is applied puts together nodes from beneath the target and new ones.  No node comes
to lie in two places, and none that is moved gets lost; that holds whatever nodes the match binds,
also where they enclose one another.

What is put in looks as the template says as long as no node with a use lies beneath another one in
the target's subtree.
-/
import Mathlib
import TreeRules.Proofs.Rule.Once
import TreeRules.Proofs.Rule.Placed
import TreeRules.Proofs.Template.Use

namespace TreeRules

namespace Replacement

variable {d d' : Document} {f : Forest} {m : Match} {t : Template} {applied : Applied}
  {n r x y : NodeId}

/-- What lies within a node after something has been taken out did so before. -/
theorem within_of_within_detach (h : (f.detach r).Within n x) : f.Within n x :=
  Relation.ReflTransGen.mono (fun _ _ => Forest.up_of_up_detach) n x h

/-! ### Nodes are neither lost nor doubled -/

/-- What is built of a template consists of nodes from within the target and new ones. -/
theorem within_target_of_built (hf : f.WellFormed) (ht : m.target < f.size)
    (hr : r ∈ (t.instantiate (f.detach m.target) m).2) (hn : n < f.size)
    (hw : (t.instantiate (f.detach m.target) m).1.forest.Within n r) : f.Within n m.target := by
  have hadds := adds_instantiate hf ht t
  have hn' : n < (f.detach m.target).size := by rwa [Forest.size_detach]
  -- above `n`, or at it, a node has been moved
  have hmoved : ∃ y, Instance.Moves { forest := f.detach m.target }
      (t.instantiate (f.detach m.target) m).1 y ∧
        (t.instantiate (f.detach m.target) m).1.forest.Within n y := by
    rcases hadds.fresh r hr with hnew | hmove
    · exact hadds.exists_moves_of_within (hf.detach _) hn' hnew hw
    · exact ⟨r, hmove, hw⟩
  obtain ⟨y, hy, hny⟩ := hmoved
  have hwithin := (hadds.moves y hy).2
  have hlt : y < (f.detach m.target).size := by
    refine Forest.lt_size_of_within ?_ hwithin
    rwa [Forest.size_detach]
  exact within_of_within_detach
    ((hadds.within_of_within (hf.detach _) hn' hlt hny).trans hwithin)

/-- **A template neither loses nodes nor has them twice.**  The nodes reported as moved are
different ones from the target's subtree, and each lies afterwards within exactly one of the roots
that are put in.  Within those there is no node twice, and each is from the target's subtree or
new. -/
theorem no_node_lost_or_doubled (hf : d.forest.WellFormed) (ht : m.target < d.forest.size)
    (h : (template t).apply d m = (d', .ok applied)) :
    d'.forest.deliveries.toList = d.forest.deliveries.toList ++
        (d.forest.heard m.target .removed ++
          (t.moved d.forest m).flatMap (d.forest.heard · .moved) ++
          applied.inserted.flatMap (d.forest.heard · .inserted) ++
          (d.forest.parent m.target).toList.flatMap (d.forest.heard · .childrenChanged)) ∧
      (t.moved d.forest m).Nodup ∧
      (∀ n ∈ t.moved d.forest m, n ∈ d.forest.preorder m.target ∧
        ∃! r, r ∈ applied.inserted ∧ n ∈ d'.forest.preorder r) ∧
      (applied.inserted.flatMap d'.forest.preorder).Nodup ∧
      ∀ n ∈ applied.inserted.flatMap d'.forest.preorder,
        n ∈ d.forest.preorder m.target ∨ d.forest.size ≤ n ∧ n < d'.forest.size := by
  obtain ⟨hinserted, hplaced, hdeliveries⟩ := of_apply_template_ok hf ht h
  have hadds := adds_instantiate hf ht t
  have hcovers := Instance.covers_nodes t.roots (b := { forest := d.forest.detach m.target })
    (hf.detach m.target) (by rwa [Forest.size_detach])
  -- within the roots the walk is the one through the instance
  have hpreorder : ∀ r ∈ applied.inserted, d'.forest.preorder r =
      (t.instantiate (d.forest.detach m.target) m).1.forest.preorder r := by
    intro r hr
    exact hplaced.preorder_eq hadds.wellFormed hr
  have htop : ∀ r ∈ applied.inserted,
      (t.instantiate (d.forest.detach m.target) m).1.forest.parent r = none := by
    intro r hr
    exact hadds.top r (hinserted ▸ hr)
  have hmem : ∀ n, ∀ r ∈ applied.inserted, n ∈ d'.forest.preorder r ↔
      (t.instantiate (d.forest.detach m.target) m).1.forest.Within n r := by
    intro n r hr
    rw [hpreorder r hr, hadds.wellFormed.mem_preorder_iff]
  refine ⟨hdeliveries, (Instance.kept_nodup m).nodes t.roots _ List.nodup_nil, fun n hn => ?_, ?_,
    fun n hn => ?_⟩
  · have hmove : Instance.Moves { forest := d.forest.detach m.target }
        (t.instantiate (d.forest.detach m.target) m).1 n := ⟨hn, List.not_mem_nil⟩
    refine ⟨hf.mem_preorder_iff.mpr (within_of_within_detach (hadds.moves n hmove).2), ?_⟩
    obtain ⟨r, hr, hw⟩ := hcovers n hmove
    have hr' : r ∈ applied.inserted := hinserted ▸ hr
    refine ⟨r, ⟨hr', (hmem n r hr').mpr hw⟩, ?_⟩
    rintro s ⟨hs, hns⟩
    exact Forest.eq_of_within_tops (htop s hs) (htop r hr') ((hmem n s hs).mp hns) hw
  · rw [List.flatMap_congr hpreorder]
    exact hadds.wellFormed.nodup_flatMap_preorder (hinserted ▸ hadds.nodup) htop
  · obtain ⟨r, hr, hnr⟩ := List.mem_flatMap.mp hn
    rw [hmem n r hr] at hnr
    by_cases hold : n < d.forest.size
    · left
      rw [hf.mem_preorder_iff]
      exact within_target_of_built hf ht (hinserted ▸ hr) hold hnr
    · right
      refine ⟨Nat.le_of_not_lt hold, ?_⟩
      rw [hplaced.size]
      exact Forest.lt_size_of_within (hadds.lt_size r (hinserted ▸ hr)) hnr

/-- A leaf beneath a chain of two nodes. -/
def leafBeneath : Document :=
  Document.ofTree (.node "r" [.node "a" [.node "b" [.node "c" []]]])

/-- The chain is climbed from the leaf. -/
def climbed : Match := ⟨3, 1, [3, 2, 1], [("x", .single 3), ("y", .single 2)]⟩

/-- A node is used before the one that it lies in, and the target after both. -/
theorem no_node_lost_or_doubled_climbed :
    let t : Template := ⟨[.node (.literal "w") [.node (.capture "x" 0) []],
      .node (.capture "y" 0) [], .node .target [], .node (.capture "x" 0) []]⟩
    ∃ d' applied, (template t).apply leafBeneath climbed = (d', .ok applied) ∧
      t.moved leafBeneath.forest climbed = [3, 2, 1] ∧ applied.inserted = [4, 2, 1, 5] ∧
      applied.inserted.flatMap d'.forest.preorder = [4, 3, 2, 1, 5] ∧
      (∀ n ∈ t.moved leafBeneath.forest climbed,
        n ∈ leafBeneath.forest.preorder climbed.target ∧
          ∃! r, r ∈ applied.inserted ∧ n ∈ d'.forest.preorder r) ∧
      (applied.inserted.flatMap d'.forest.preorder).Nodup := by
  intro t
  have hok : ((template t).apply leafBeneath climbed).2 =
      .ok { changed := true, inserted := [4, 2, 1, 5] } := by
    decide +kernel
  have hwalk : [4, 2, 1, 5].flatMap ((template t).apply leafBeneath climbed).1.forest.preorder =
      [4, 3, 2, 1, 5] := by
    decide +kernel
  have hmoves : t.moved leafBeneath.forest climbed = [3, 2, 1] := by
    decide +kernel
  rcases happly : (template t).apply leafBeneath climbed with ⟨d', result⟩
  rw [happly] at hok hwalk
  obtain rfl : result = .ok { changed := true, inserted := [4, 2, 1, 5] } := hok
  obtain ⟨-, -, hmoved, hnodup, -⟩ :=
    no_node_lost_or_doubled (Forest.wellFormed_ofTree _) (by decide +kernel) happly
  exact ⟨d', _, rfl, hmoves, rfl, hwalk, hmoved, hnodup⟩

/-! ### What is put in looks as the template says -/

/-- **What a template puts in is its expansion**, if of the nodes with a use that lie in the
target's subtree none encloses another.  Each of them stands for what it looked like when the target
had been taken out and nothing else had been done, also where it is used several times or lies
outside the target's subtree. -/
theorem inserted_look_as_expanded (hf : d.forest.WellFormed) (ht : m.target < d.forest.size)
    (huses : ∀ n ∈ t.uses m, n < d.forest.size)
    (hapart : ∀ x ∈ t.uses m, ∀ y ∈ t.uses m, x ≠ y → d.forest.encloses m.target x = true →
      d.forest.encloses m.target y = true → d.forest.encloses y x = false)
    (h : (template t).apply d m = (d', .ok applied)) :
    applied.inserted.map d'.forest.tree = t.expand m (d.forest.detach m.target).tree := by
  obtain ⟨hinserted, hplaced, -⟩ := of_apply_template_ok hf ht h
  have hadds := adds_instantiate hf ht t
  have htop : (d.forest.detach m.target).parent m.target = none := by
    rw [Forest.parent_detach, if_pos rfl]
  have hready : Instance.Ready m (· ∈ t.uses m) (d.forest.detach m.target).tree
      (d.forest.detach m.target) := by
    refine ⟨fun n hn => ?_, fun _ _ => rfl, fun x y hx hy hne hxt hxy => ?_⟩
    · rw [Forest.size_detach]
      exact huses n hn
    · -- what encloses a node from within the target lies there itself, as the target is at the top
      have hyt : (d.forest.detach m.target).Within y m.target := by
        rcases Forest.within_total hxy hxt with hyt | hty
        · exact hyt
        · exact Forest.eq_of_within_of_parent_none htop hty ▸ Forest.Within.refl _
      have hno := hapart x hx y hy hne (hf.encloses_iff.mpr (within_of_within_detach hxt))
        (hf.encloses_iff.mpr (within_of_within_detach hyt))
      rw [hf.encloses_iff.mpr (within_of_within_detach hxy)] at hno
      cases hno
  have htrees := Instance.tree_nodes t.roots (b := { forest := d.forest.detach m.target })
    (hf.detach m.target) (by rwa [Forest.size_detach]) (fun n hn => hn) hready
  rw [Template.expand, ← htrees, hinserted]
  refine List.map_congr_left fun r hr => ?_
  exact hplaced.tree_eq hadds.wellFormed (hinserted ▸ hr) (Forest.Within.refl r)

/-- A leaf from within the target is used twice, and so is the root, which has lost the target. -/
theorem inserted_look_as_expanded_outside :
    let t : Template := ⟨[
      .node (.literal "w") [.node (.capture "x" 0) [], .node (.capture "z" 0) []],
      .node (.capture "z" 0) [], .node (.capture "x" 0) []]⟩
    let m : Match := ⟨2, 1, [2, 1], [("x", .single 2), ("z", .multiple [0, 0])]⟩
    let d := Document.ofTree (.node "r" [.node "a" [.node "b" []], .node "c" []])
    ∃ d' applied, (template t).apply d m = (d', .ok applied) ∧
      applied.inserted.map d'.forest.tree =
        [.node "w" [.node "b" [], .node "r" [.node "c" []], .node "r" [.node "c" []]],
          .node "r" [.node "c" []], .node "r" [.node "c" []], .node "b" []] := by
  intro t m d
  obtain ⟨d', applied, happly⟩ := apply_ok_of_parent (d := d) (m := m) t
    (show d.forest.parent m.target = some 0 by decide +kernel)
  have hlook := inserted_look_as_expanded (Forest.wellFormed_ofTree _) (by decide +kernel)
    (by decide +kernel) (by decide +kernel) happly
  exact ⟨d', applied, happly, hlook.trans (by rfl)⟩

/-! ### Which uses move their node -/

/-- What was built of a template has been put in place as it was built. -/
theorem settled_of_apply (hf : d.forest.WellFormed) (ht : m.target < d.forest.size)
    (h : (template t).apply d m = (d', .ok applied)) :
    Instance.Settled { forest := d.forest.detach m.target }
      (t.instantiate (d.forest.detach m.target) m).1 d'.forest := by
  obtain ⟨-, hplaced, -⟩ := of_apply_template_ok hf ht h
  refine ⟨hplaced.wellFormed, fun n _ _ => hplaced.value n, fun n hn _ => hplaced.children n ?_⟩
  -- the parent of the target is no new node
  intro hp
  have hlt := hf.parent_lt_size hp
  rw [Forest.size_detach] at hn
  exact Nat.not_lt.mpr hn hlt

/-- **A node is moved exactly if it has a use that takes it**: one before which neither the node nor
one that encloses it, the target apart, has been used from the target's subtree.  In what is put in,
that use is stood for by the node itself, and every other use by a new node.  That one looks like
the used node did when the target had been taken out, without the nodes beneath it that had been
moved by then. -/
theorem moved_iff_taken (hf : d.forest.WellFormed) (ht : m.target < d.forest.size)
    (huses : ∀ n ∈ t.uses m, n < d.forest.size)
    (h : (template t).apply d m = (d', .ok applied)) :
    (∀ n, n ∈ t.moved d.forest m ↔
      ∃ before after, t.uses m = before ++ n :: after ∧ m.Takes d.forest before n) ∧
      ∀ before n after, t.uses m = before ++ n :: after →
        ∃ s, (t.standIns m d'.forest applied.inserted)[before.length]? = some s ∧
          (m.Takes d.forest before n → s = n) ∧
          (¬ m.Takes d.forest before n → d.forest.size ≤ s ∧ [d'.forest.tree s] =
            (d.forest.detach m.target).without (m.movedBy d.forest before) n) := by
  obtain ⟨hinserted, -⟩ := of_apply_template_ok hf ht h
  have huse := Instance.uses_nodes t.roots (Instance.Begun.start hf ht) huses
    (settled_of_apply hf ht h)
  have hmoved : t.moved d.forest m = m.movedBy d.forest (t.uses m) := huse.moved_eq
  refine ⟨fun n => ?_, fun before n after hsplit => ?_⟩
  · rw [hmoved, Match.mem_movedBy_iff hf]
  · obtain ⟨s, hs, htakes, hstays⟩ := huse.stands hsplit
    rw [hinserted]
    refine ⟨s, hs, fun h => htakes ((Match.takes_movedBy_iff hf).mpr h), fun h => hstays ?_⟩
    exact fun h' => h ((Match.takes_movedBy_iff hf).mp h')

/-- What `y` binds, and then what `x` binds. -/
def yThenX : Template := ⟨[.node (.capture "y" 17) [], .node (.capture "x" 21) []]⟩

/-- From the leaf beneath the chain the match climbs to the chain and to the node above it. -/
def climbing : CompiledPattern :=
  let pattern : Pattern := .sequence [(none, .capture "x" (.test (.literal "c"))),
    (none, .parent), (none, .parent),
    (some .child, .capture "y" (.test (.literal "b"))), (none, .parent), (none, .parent),
    (some .child, .test (.literal "a"))]
  { source := "x:c>>/y:b>>/a -> $y, $x", pattern, program := pattern.compile,
    template := some yThenX, predicates := [] }

theorem read_climbing : CompiledPattern.read "x:c>>/y:b>>/a -> $y, $x" {} = .ok climbing := by
  cbv

theorem whole_leafBeneath : leafBeneath.Whole where
  wellFormed := Forest.wellFormed_ofTree _
  lt_size := by decide +kernel
  parent_root := by decide +kernel

theorem apply_yThenX :
    ∃ d' applied, (template yThenX).apply leafBeneath climbed = (d', .ok applied) :=
  apply_ok_of_parent yThenX (show leafBeneath.forest.parent climbed.target = some 0 by
    decide +kernel)

/-- The inner end of the chain is used after the chain, and is stood for by a clone. -/
theorem moved_iff_taken_climbed :
    ∃ d' applied, (template yThenX).apply leafBeneath climbed = (d', .ok applied) ∧
      yThenX.uses climbed = [2, 3] ∧ 2 ∈ yThenX.moved leafBeneath.forest climbed ∧
      ∃ s, (yThenX.standIns climbed d'.forest applied.inserted)[1]? = some s ∧
        leafBeneath.forest.size ≤ s ∧ [d'.forest.tree s] = [.node "c" []] := by
  obtain ⟨d', applied, happly⟩ := apply_yThenX
  obtain ⟨hmoved, hstands⟩ := moved_iff_taken whole_leafBeneath.wellFormed (by decide +kernel)
    (by decide +kernel) happly
  obtain ⟨s, hs, -, hclone⟩ := hstands [2] 3 [] rfl
  obtain ⟨hnew, hlook⟩ := hclone (by decide +kernel)
  refine ⟨d', applied, happly, rfl, (hmoved 2).mpr ⟨[], [3], rfl, by decide +kernel⟩, s, hs, hnew,
    hlook.trans (by rfl)⟩

/-- **Not every first use moves its node**: the inner node of two that the template refers to stays
where it is if the outer one comes first, and a clone is put in. -/
theorem first_use_may_clone :
    ¬ ∀ (text : String) (settings limits : Settings) (p : CompiledPattern) (t : Template)
      (predicates : Predicates) (d d' : Document) (m : Match) (applied : Applied),
      CompiledPattern.read text settings = .ok p → p.template = some t → d.Whole →
      m ∈ p.findAll d.forest predicates limits d.root →
      (template t).apply d m = (d', .ok applied) →
      ∀ n ∈ t.uses m, d.forest.encloses m.target n = true → n ∈ t.moved d.forest m := by
  intro h
  have hfound : climbed ∈ climbing.findAll leafBeneath.forest {} {} leafBeneath.root := by
    rw [CompiledPattern.findAll_eq_take read_climbing whole_leafBeneath.wellFormed]
    decide +kernel
  obtain ⟨d', applied, happly⟩ := apply_yThenX
  have hmoved := h _ _ _ _ _ _ _ _ _ _ read_climbing rfl whole_leafBeneath hfound happly 3
    (by decide +kernel) (by decide +kernel)
  exact absurd hmoved (by decide +kernel)

end Replacement

end TreeRules
