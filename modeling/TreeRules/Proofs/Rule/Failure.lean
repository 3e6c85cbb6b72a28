/-
What a replacement that fails leaves behind.

A replacement is refused before anything is done to the document.  For a template that is so because
the number of nodes that it stands for is told beforehand, and it is the number that would be built.
A callback has to be asked for its answer, and what it has done to the forest by then stays done; if
the answer is refused, that is all.

Only a target that has no place is refused without a look at the replacement.  That is not every
target that is no longer part of the document: one that lies beneath a node that has been cut off
still has its place there, and there it is replaced.  The document's own tree has no part in it.
-/
import TreeRules.Proofs.Rule.Once
import TreeRules.Proofs.Rule.Reachable
import TreeRules.Proofs.Rule.Splice

namespace TreeRules

variable {g : Forest} {d d' : Document} {m : Match} {r : Replacement} {t : Template}
  {n p root : NodeId} {place : Place} {earlier before roots after : List NodeId} {e : ApplyError}
  {build : Forest → Match → Forest × List NodeId}

namespace Replacement

/-! ### Faults of an answer -/

theorem fault?_eq_none_iff :
    fault? d place earlier root = none ↔
      d.forest.parent root = none ∧ root ≠ d.root ∧ root ∉ earlier ∧
        ∀ p, place.parent = some p → d.forest.encloses root p = false := by
  unfold fault?
  cases d.forest.parent root with
  | some p => simp
  | none =>
      by_cases hroot : root = d.root
      · simp [hroot]
      by_cases hearlier : root ∈ earlier
      · simp [hroot, hearlier]
      cases place.parent with
      | none => simp [hroot, hearlier]
      | some p => simp [hroot, hearlier]

/-- **An answer has no fault** exactly if its nodes are distinct roots of trees other than the
document's and the one that the place is in. -/
theorem firstFault?_eq_none_iff :
    firstFault? d place earlier roots = none ↔
      roots.Nodup ∧ ∀ root ∈ roots, d.forest.parent root = none ∧ root ≠ d.root ∧
        root ∉ earlier ∧ ∀ p, place.parent = some p → d.forest.encloses root p = false := by
  induction roots generalizing earlier with
  | nil => simp [firstFault?]
  | cons root roots ih =>
      rw [firstFault?, List.nodup_cons, List.forall_mem_cons, ← fault?_eq_none_iff]
      cases hfault : fault? d place earlier root with
      | some fault => simp
      | none =>
          dsimp only
          rw [ih]
          constructor
          · rintro ⟨hnodup, hroots⟩
            refine ⟨⟨fun hmem => ?_, hnodup⟩, rfl, fun other hother => ?_⟩
            · exact (hroots root hmem).2.2.1 (List.mem_append_right _ List.mem_cons_self)
            · obtain ⟨htop, hne, hnot, hapart⟩ := hroots other hother
              exact ⟨htop, hne, fun hmem => hnot (List.mem_append_left _ hmem), hapart⟩
          · rintro ⟨⟨hnot, hnodup⟩, -, hroots⟩
            refine ⟨hnodup, fun other hother => ?_⟩
            obtain ⟨htop, hne, hother', hapart⟩ := hroots other hother
            refine ⟨htop, hne, fun hmem => ?_, hapart⟩
            rcases List.mem_append.mp hmem with hmem | hmem
            · exact hother' hmem
            · exact hnot (List.mem_singleton.mp hmem ▸ hother)

theorem fault?_ne_targetGone : fault? d place earlier root ≠ some .targetGone := by
  unfold fault?
  split
  · simp
  split
  · simp
  split
  · simp
  split
  · simp
  · simp

/-- What is wrong with an answer is never that the target is gone. -/
theorem firstFault?_ne_targetGone :
    firstFault? d place earlier roots ≠ some (.detachedReplacement n .targetGone) := by
  induction roots generalizing earlier with
  | nil => simp [firstFault?]
  | cons root roots ih =>
      rw [firstFault?]
      split
      · rename_i fault hfault
        intro heq
        cases heq
        exact fault?_ne_targetGone hfault
      · exact ih

/-! ### What has been done when a replacement fails -/

theorem of_applyTemplate_error (h : applyTemplate d m t = (d', .error e)) :
    d' = d ∧ e = .invalidRootReplacement m.target (t.rootCount m) := by
  by_cases haccepted : d.forest.parent m.target ≠ none ∨ t.rootCount m = 1
  · obtain ⟨applied, hok⟩ := applyTemplate_of_accepted t haccepted
    rw [h] at hok
    cases hok
  · rw [not_or, not_not] at haccepted
    rw [applyTemplate_of_refused t haccepted.1 haccepted.2] at h
    cases h
    exact ⟨rfl, rfl⟩

theorem of_applyCallback_error (hbuild : build d.forest m = (g, roots))
    (h : applyCallback d m build = (d', .error e)) :
    d' = ⟨g, d.root⟩ ∧
      (firstFault? ⟨g, d.root⟩ (placeOf d.forest m.target) [] roots = some e ∨
        e = .invalidRootReplacement m.target roots.length) := by
  rcases applyCallback_cases hbuild with heq | ⟨e, hcause, heq⟩ | ⟨-, -, moved, heq⟩
  · rw [heq] at h
    cases h
  · rw [heq] at h
    cases h
    exact ⟨rfl, hcause⟩
  · rw [heq] at h
    cases h

/-- **A template in the place of the root** is refused exactly if it would be built as some other
number of nodes than one. -/
theorem applyTemplate_root_error_iff (hp : d.forest.parent m.target = none) :
    (∃ d' e, applyTemplate d m t = (d', .error e)) ↔ (t.instantiate d.forest m).2.length ≠ 1 := by
  rw [t.length_instantiate d.forest m]
  constructor
  · rintro ⟨d', e, happly⟩ hcount
    obtain ⟨applied, hok⟩ := applyTemplate_of_accepted t (Or.inr hcount)
    rw [happly] at hok
    cases hok
  · intro hcount
    exact ⟨d, _, applyTemplate_of_refused t hp hcount⟩

/-- **A replacement that fails changes nothing.**  After a template the document is what it was,
with its root, its forest and the reports in it; after a callback it is what the callback has left,
which is asked only if the target has a place.  In the place of a root without a parent, a template
fails exactly if it would be built as some other number of nodes than one. -/
theorem unchanged_of_apply_error (d : Document) (m : Match) :
    (∀ t d' e, (template t).apply d m = (d', .error e) → d' = d) ∧
      (∀ build d' e, (callback build).apply d m = (d', .error e) →
        (HasPlace d m → d' = { d with forest := (build d.forest m).1 }) ∧
          (¬ HasPlace d m → d' = d)) ∧
      ∀ t, d.forest.parent m.target = none → d.root = m.target →
        ((∃ d' e, (template t).apply d m = (d', .error e)) ↔
          (t.instantiate d.forest m).2.length ≠ 1) := by
  refine ⟨fun t d' e h => ?_, fun build d' e h => ⟨fun hplace => ?_, fun hplace => ?_⟩,
    fun t hp hroot => ?_⟩
  · by_cases hplace : HasPlace d m
    · rw [apply_template hplace] at h
      exact (of_applyTemplate_error h).1
    · rw [apply_of_not_hasPlace hplace] at h
      exact (Prod.mk.inj h).1.symm
  · rw [apply_callback hplace] at h
    exact (of_applyCallback_error rfl h).1
  · rw [apply_of_not_hasPlace hplace] at h
    exact (Prod.mk.inj h).1.symm
  · rw [apply_template (Or.inl hroot)]
    exact applyTemplate_root_error_iff hp

/-- A template is refused as the root's replacement, and a callback's answer because the second of
its nodes has a parent; the new node that it has made stays. -/
theorem unchanged_of_apply_error_twoNodes :
    let d := Document.ofTree (.node "r" [.node "a" []])
    let m : Match := ⟨0, 0, [0], []⟩
    let t : Template := ⟨[.node (.literal "x") [], .node (.literal "y") []]⟩
    let build := fun (f : Forest) (_ : Match) => ((f.newNode "w").1, [f.size, 1])
    (∃ e, (template t).apply d m = (d, .error e)) ∧
      ∃ e, (callback build).apply d m = (⟨(d.forest.newNode "w").1, d.root⟩, .error e) := by
  intro d m t build
  obtain ⟨htemplate, hcallback, hroot⟩ := unchanged_of_apply_error d m
  constructor
  · obtain ⟨d', e, h⟩ := (hroot t (by decide +kernel) rfl).mpr (by decide +kernel)
    obtain rfl := htemplate t d' e h
    exact ⟨e, h⟩
  · have herror : ((callback build).apply d m).2 = .error (.detachedReplacement 1 .hasParent) := by
      decide +kernel
    have happly : (callback build).apply d m = (_, .error _) := Prod.ext rfl herror
    have hleft := (hcallback build _ _ happly).1 (Or.inl rfl)
    exact ⟨_, happly.trans (congrArg (·, _) hleft)⟩

/-! ### Targets that are no longer part of the document -/

/-- **The target is reported to be gone exactly if it has no place.** -/
theorem apply_eq_targetGone_iff :
    r.apply d m = (d, .error (.detachedReplacement m.target .targetGone)) ↔ ¬ HasPlace d m := by
  constructor
  · intro h hplace
    cases r with
    | template t =>
        rw [apply_template hplace] at h
        have herror := (of_applyTemplate_error h).2
        cases herror
    | callback build =>
        rw [apply_callback hplace] at h
        rcases (of_applyCallback_error rfl h).2 with hfault | herror
        · exact firstFault?_ne_targetGone hfault
        · cases herror
  · intro hplace
    exact apply_of_not_hasPlace hplace r

end Replacement

namespace Document

/-- A target outside the document is in no subtree of it, and neither is its parent. -/
theorem Whole.outside_of_not_contains (hd : d.Whole) (hgone : d.contains m.target = false)
    (hn : d.forest.Within n d.root) :
    ¬ d.forest.Within n m.target ∧ d.forest.parent m.target ≠ some n := by
  have hnot : ¬ d.forest.Within m.target d.root := by
    rw [← hd.contains_iff, hgone]
    exact Bool.false_ne_true
  refine ⟨fun hwithin => ?_, fun hp => hnot (Forest.Within.of_parent hp hn)⟩
  rcases Forest.within_total hwithin hn with hdown | hup
  · exact hnot hdown
  · exact hnot (Forest.eq_of_within_of_parent_none hd.parent_root hup ▸ Forest.Within.refl _)

/-- What is replaced outside the document does not change what it looks like. -/
theorem Whole.tree_of_spliced (hd : d.Whole) (hgone : d.contains m.target = false)
    (hp : d.forest.parent m.target = some p) (hroot : d'.root = d.root)
    (hs : Replacement.Spliced d.forest d'.forest m p before roots after) : d'.tree = d.tree := by
  rw [tree, tree, hroot]
  refine hd.wellFormed.tree_congr hs.confined.wellFormed d.root (fun n hn => ?_) fun n hn => ?_
  · have hout := (hd.outside_of_not_contains hgone hn).1
    exact hs.confined.keeps.value n (hd.lt_size_of_within hn) hout
  · obtain ⟨hout, hne⟩ := hd.outside_of_not_contains hgone hn
    exact hs.children n (hd.lt_size_of_within hn) (fun heq => hne (heq ▸ hp)) hout

end Document

namespace Replacement

/-- **A target that is not in the document is refused exactly if it has no parent**, by every
replacement and with nothing done.  If it still has one it is replaced by a template in the place
that it has there, outside the document, which looks as before. -/
theorem refused_outside_iff (hd : d.Whole) (hgone : d.contains m.target = false) :
    (∀ r : Replacement,
      r.apply d m = (d, .error (.detachedReplacement m.target .targetGone)) ↔
        d.forest.parent m.target = none) ∧
      ∀ t p, d.forest.parent m.target = some p →
        ∃ d' applied, (template t).apply d m = (d', .ok applied) ∧
          (∀ root ∈ applied.inserted, d'.forest.parent root = some p) ∧
          d'.root = d.root ∧ d'.tree = d.tree := by
  have hne : d.root ≠ m.target := by
    intro hroot
    have hout := hd.outside_of_not_contains hgone (Forest.Within.refl d.root)
    exact hout.1 (hroot ▸ Forest.Within.refl _)
  constructor
  · intro r
    rw [apply_eq_targetGone_iff, HasPlace, not_or, Option.eq_none_iff_forall_ne_some,
      not_exists]
    exact and_iff_right hne
  · intro t p hp
    obtain ⟨before, after, hsplit⟩ :=
      List.append_of_mem ((hd.wellFormed.parent_iff m.target p).mp hp)
    obtain ⟨d', roots, happly, hroot, hspliced, -⟩ := spliced_applyTemplate hd.wellFormed hsplit t
    refine ⟨d', _, (apply_template_of_parent hp t).trans happly, fun root hmem => ?_, hroot,
      hd.tree_of_spliced hgone hp hroot hspliced⟩
    rw [hspliced.confined.wellFormed.parent_iff, hspliced.children_self]
    exact List.mem_append_left _ (List.mem_append_right _ hmem)

open CompiledPattern

/-- A leaf beneath a node that has a parent. -/
def threeLevels : Document := Document.ofTree (.node "r" [.node "c" [.node "a" []]])

/-- The same when the middle node has been cut off. -/
def cutOff : Document := ⟨threeLevels.forest.detach 1, threeLevels.root⟩

theorem whole_threeLevels : threeLevels.Whole where
  wellFormed := Forest.wellFormed_ofTree _
  lt_size := by decide +kernel
  parent_root := by decide +kernel

theorem whole_cutOff : cutOff.Whole where
  wellFormed := whole_threeLevels.wellFormed.detach 1
  lt_size := by decide +kernel
  parent_root := by decide +kernel

/-- The node that was cut off is refused, and the leaf beneath it is replaced where it is. -/
theorem refused_outside_iff_cutOff :
    (∀ r : Replacement, r.apply cutOff ⟨1, 1, [1], []⟩ =
      (cutOff, .error (.detachedReplacement 1 .targetGone))) ∧
      ∃ d' applied, (template ⟨[.node (.literal "y") []]⟩).apply cutOff ⟨2, 2, [2], []⟩ =
        (d', .ok applied) ∧ d'.tree = .node "r" [] := by
  have hfirst := refused_outside_iff (m := ⟨1, 1, [1], []⟩) whole_cutOff (by decide +kernel)
  have hsecond := refused_outside_iff (m := ⟨2, 2, [2], []⟩) whole_cutOff (by decide +kernel)
  refine ⟨fun r => (hfirst.1 r).mpr (by decide +kernel), ?_⟩
  obtain ⟨d', applied, happly, -, -, htree⟩ :=
    hsecond.2 ⟨[.node (.literal "y") []]⟩ 1 (by decide +kernel)
  exact ⟨d', applied, happly, htree.trans rfl⟩

/-- **Not every target that has left the document is refused**: one that was found in it is
replaced although a node above it has been detached in the meantime. -/
theorem target_beneath_cut_off_is_replaced :
    ¬ ∀ (text : String) (settings limits : Settings) (p : CompiledPattern)
      (predicates : Predicates) (d₀ d : Document) (m : Match) (r : Replacement),
      CompiledPattern.read text settings = .ok p → d₀.Whole →
      m ∈ p.findAll d₀.forest predicates limits d₀.root → Forest.Steps d₀.forest d.forest →
      d.root = d₀.root → d.Whole → d.contains m.target = false →
      r.apply d m = (d, .error (.detachedReplacement m.target .targetGone)) := by
  intro h
  have hfound : ⟨2, 2, [2], [("x", .single 2)]⟩ ∈
      alikeSiblings.findAll threeLevels.forest {} {} threeLevels.root := by
    rw [findAll_eq_take read_alikeSiblings whole_threeLevels.wellFormed]
    decide +kernel
  have hdetach : Forest.Steps threeLevels.forest cutOff.forest :=
    .single (.operation (.detach threeLevels.forest 1))
  have hrefused := h _ _ _ _ _ _ _ _ (.template ⟨[]⟩) read_alikeSiblings whole_threeLevels hfound
    hdetach rfl whole_cutOff (by decide +kernel)
  exact apply_eq_targetGone_iff.mp hrefused (Or.inr ⟨1, by decide +kernel⟩)

end Replacement

end TreeRules
