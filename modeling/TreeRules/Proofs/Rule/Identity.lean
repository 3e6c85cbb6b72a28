/-
Replacing a target by itself changes nothing.

The target is taken out and the instance of `$0` takes it along.  It is then put back at the index
that it had, between the siblings that it had.  If the target is the root, there is nothing to take
it out of, and it becomes the root again.  So the nodes are what they were, down to the order of
children and to who hears of a change; all that is new is what has been reported.

What is found depends on the nodes alone.  Hence no match loses a node, every match of a pass is
replaced, and the next pass finds the same matches.  A rule that does this is never done: repeated,
it gives up exactly if there is a match to begin with.
-/
import TreeRules.Proofs.Forest.Records
import TreeRules.Proofs.Matching.Mirrored
import TreeRules.Proofs.Rule.Completed
import TreeRules.Proofs.Rule.Refusal

namespace TreeRules

/-! ### A node that is put back -/

namespace Forest

variable {f g : Forest} {n p : NodeId} {before after : List NodeId}

/-- A node is told by its text, its parent, its children and its records. -/
theorem Silent.nodes_eq (h : f.Silent g) (hsize : g.size = f.size)
    (hvalue : ∀ n, g.value n = f.value n) (hparent : ∀ n, g.parent n = f.parent n)
    (hchildren : ∀ n, g.children n = f.children n) : g.nodes = f.nodes := by
  refine Array.ext hsize fun i hi hi' => ?_
  have hvalue := hvalue i
  have hparent := hparent i
  have hchildren := hchildren i
  have hobservers := h.observers i
  simp only [value, parent, children, Forest.observers, Array.getElem?_eq_getElem hi,
    Array.getElem?_eq_getElem hi', Option.bind_some] at hvalue hparent hchildren hobservers
  generalize g.nodes[i] = node at *
  generalize f.nodes[i] = node' at *
  cases node
  cases node'
  rw [Node.mk.injEq]
  exact ⟨hvalue, hparent, hchildren, hobservers⟩

/-- **A node that is taken out and put back where it stood** leaves no trace. -/
theorem nodes_insertChild_detach (hf : f.WellFormed)
    (hsplit : f.children p = before ++ n :: after) :
    ((f.detach n).insertChild p before.length n).nodes = f.nodes := by
  have hp := hf.parent_of_split hsplit
  have hlt := hf.parent_lt_size hp
  have htop : (f.detach n).parent n = none := by
    rw [parent_detach, if_pos rfl]
  have hapart : ¬ (f.detach n).Within p n := by
    intro hw
    refine Replacement.not_within_of_parent hf hp ?_
    exact Relation.ReflTransGen.mono (fun _ _ => up_of_up_detach) p n hw
  have hchildren : (f.detach n).children p = before ++ after := by
    rw [children_detach hf]
    exact (hf.index_of_split hsplit).2
  have hhung := hung_insertChild (hf.detach n) (by rwa [size_detach])
    (by rw [size_detach]; exact lt_size_of_parent hp) htop hapart hchildren
  refine ((silent_detach f n).trans (silent_insertChild _ p _ n)).nodes_eq ?_ ?_ ?_ ?_
  · rw [hhung.size, size_detach]
  · intro m
    rw [hhung.value, value_detach]
  · intro m
    rw [hhung.parent, parent_detach]
    by_cases hmn : m = n
    · rw [if_pos (List.mem_singleton.mpr hmn), hmn, hp]
    · rw [if_neg (mt List.mem_singleton.mp hmn), if_neg hmn]
  · intro m
    by_cases hmp : m = p
    · rw [hmp, hhung.children_self, hsplit, List.append_assoc]
      rfl
    · rw [hhung.children m hmp, children_detach hf]
      refine filter_ne_of_not_mem fun hmem => hmp ?_
      exact Option.some.inj (((hf.parent_iff n m).mpr hmem).symm.trans hp)

end Forest

/-- The target is taken along, whatever the match. -/
theorem Template.instantiate_target (f : Forest) (m : Match) :
    target.instantiate (f.detach m.target) m =
      ({ forest := f.detach m.target, moved := [m.target] }, [m.target]) := by
  have htop : (f.detach m.target).parent m.target = none := by
    rw [Forest.parent_detach, if_pos rfl]
  have hself : (f.detach m.target).encloses m.target m.target = true := by
    simp [Forest.encloses, Forest.ancestors, Forest.ancestorsWithin]
  have huse : Instance.use m { forest := f.detach m.target } m.target =
      ({ forest := f.detach m.target, moved := [m.target] }, m.target) := by
    rw [Instance.use, hself, Forest.detach_of_parent_none htop]
    rfl
  simp only [instantiate, target, Instance.nodes, Instance.node, huse]
  rfl

/-! ### One replacement -/

namespace Document

variable {d d' d'' : Document} {m : Match} {matched : List Match}

/-- The documents have the same root and the same nodes: texts, parents, the order of children, and
who hears of a change. -/
structure Same (d d' : Document) : Prop where
  root : d'.root = d.root
  nodes : d'.forest.nodes = d.forest.nodes

namespace Same

theorem refl (d : Document) : d.Same d := ⟨rfl, rfl⟩

theorem trans (h : d.Same d') (h' : d'.Same d'') : d.Same d'' :=
  ⟨h'.root.trans h.root, h'.nodes.trans h.nodes⟩

theorem parent_eq (h : d.Same d') (n : NodeId) : d'.forest.parent n = d.forest.parent n := by
  rw [Forest.parent, Forest.parent, h.nodes]

theorem whole (h : d.Same d') (hd : d.Whole) : d'.Whole where
  wellFormed := (hd.wellFormed.grows_of_nodes_eq h.nodes).wellFormed
  lt_size := by
    rw [h.root, Forest.size, h.nodes]
    exact hd.lt_size
  parent_root := by
    rw [h.root, h.parent_eq]
    exact hd.parent_root

theorem fits (h : d.Same d') (hm : d.Fits m) : d'.Fits m where
  target_mem := hm.target_mem
  within := by
    intro n hn
    rw [h.root]
    refine Relation.ReflTransGen.mono (fun x y hup => ?_) n d.root (hm.within n hn)
    exact (h.parent_eq x).trans hup

end Same

/-- **A target that is replaced by itself** stays where it is. -/
theorem Whole.apply_target (hd : d.Whole) (hm : d.Fits m) :
    ∃ d' applied, (Replacement.template .target).apply d m = (d', .ok applied) ∧ d.Same d' := by
  by_cases hroot : m.target = d.root
  · have htop : d.forest.parent m.target = none := by
      rw [hroot]
      exact hd.parent_root
    have hinstance := Template.instantiate_target d.forest m
    rw [Forest.detach_of_parent_none htop] at hinstance
    rw [apply_root hroot]
    refine ⟨⟨Replacement.report d.forest m.target [m.target] [m.target] none, m.target⟩,
      ⟨true, [m.target]⟩, ?_, hroot, Replacement.nodes_report _ _ _ _ _⟩
    simp only [Replacement.applyTemplate, Replacement.placeOf, htop,
      Forest.detach_of_parent_none htop, hinstance, Replacement.putInto]
    rfl
  · obtain ⟨p, hp⟩ := exists_parent_of_ne_root (hm.within m.target hm.target_mem) hroot
    obtain ⟨before, after, hsplit⟩ :=
      List.append_of_mem ((hd.wellFormed.parent_iff m.target p).mp hp)
    rw [Replacement.apply_template_of_parent hp, Replacement.applyTemplate_eq hp,
      Template.instantiate_target, (hd.wellFormed.index_of_split hsplit).1]
    refine ⟨_, _, rfl, rfl, ?_⟩
    exact (Replacement.nodes_report _ _ _ _ _).trans
      (Forest.nodes_insertChild_detach hd.wellFormed hsplit)

/-- **No match loses a node**, so each is replaced. -/
theorem Whole.replaceAll_target (hd : d.Whole) (hmatched : ∀ m ∈ matched, d.Fits m) (t : Tally) :
    ∃ d', Runner.replaceAll (.template .target) d t matched =
        (d', .ok { t with applications := t.applications + matched.length }) ∧ d.Same d' := by
  induction matched generalizing d t with
  | nil => exact ⟨d, rfl, .refl d⟩
  | cons m rest ih =>
      rw [List.forall_mem_cons] at hmatched
      obtain ⟨d₁, applied, happly, hsame⟩ := hd.apply_target hmatched.1
      obtain ⟨d₂, hrest, hsame'⟩ := ih (hsame.whole hd)
        (fun later hlater => hsame.fits (hmatched.2 later hlater))
        { t with applications := t.applications + 1 }
      refine ⟨d₂, ?_, hsame.trans hsame'⟩
      have hattached := (hd.stillAttached_iff hmatched.1.target_mem).mpr hmatched.1
      rw [Runner.replaceAll, if_pos hattached, happly, List.length_cons,
        Nat.add_comm rest.length 1, ← Nat.add_assoc]
      exact hrest

end Document

namespace Runner

variable {text : String} {settings : Settings} {p : CompiledPattern} {r : Runner} {rule : Rule}
  {mode : Mode} {d d' : Document}

/-! ### One pass, and all passes -/

theorem found_of_same (hrule : rule.Templated) (hd : d.Whole) (h : d.Same d') :
    r.found rule d' = r.found rule d := by
  obtain ⟨text, settings, hread⟩ := hrule.read
  rw [found, found, h.root]
  exact CompiledPattern.findAll_of_nodes_eq hread hd.wellFormed h.nodes r.predicates r.settings _

theorem pass_target (hrule : rule.Completes p .target mode) (hd : d.Whole) :
    ∃ d', r.pass rule d = (d', .ok ⟨(r.found rule d).length, 0⟩) ∧ d.Same d' := by
  obtain ⟨text, settings, hread⟩ := hrule.read
  have hfits : ∀ m ∈ r.found rule d, d.Fits m := fun m hm => fits_of_mem_findAll hread hd hm
  obtain ⟨d', hall, hsame⟩ := hd.replaceAll_target hfits {}
  rw [pass_eq_replaceAll, hrule.replacement]
  exact ⟨d', by rw [hall, Nat.zero_add], hsame⟩

/-- **Every pass finds what the first has found**, and there is always one left. -/
theorem repeatPasses_target (hrule : rule.Completes p .target mode) (hd : d.Whole)
    (hfound : r.found rule d ≠ []) (o : Outcome) (left : Nat) :
    ∃ d', r.repeatPasses rule d o left = (d', .error (.didNotConverge (o.passes + left)
      (o.applications + left * (r.found rule d).length))) ∧ d.Same d' := by
  induction left generalizing d o with
  | zero =>
      have hmatch : r.hasMatch rule d = true := by
        rwa [← Bool.not_eq_false, hasMatch_eq_false_iff]
      refine ⟨d, ?_, .refl d⟩
      rw [repeatPasses, hmatch, Nat.zero_mul]
      rfl
  | succ left ih =>
      obtain ⟨d₁, hpass, hsame⟩ := pass_target (r := r) hrule hd
      have hagain := found_of_same (r := r) hrule.templated hd hsame
      have hmore := mt (found_eq_nil_iff_of_pass hpass).mp hfound
      obtain ⟨d₂, hrest, hsame'⟩ := ih (hsame.whole hd) (by rwa [hagain])
        (o.add ⟨(r.found rule d).length, 0⟩)
      have hpasses : o.passes + 1 + left = o.passes + (left + 1) := by omega
      have happlied : o.applications + (r.found rule d).length + left * (r.found rule d).length =
          o.applications + (left + 1) * (r.found rule d).length := by
        rw [Nat.succ_mul]
        omega
      refine ⟨d₂, ?_, hsame.trans hsame'⟩
      rw [repeatPasses, hpass]
      dsimp only at hmore ⊢
      rw [if_neg hmore, hrest, hagain, Outcome.passes_add, Outcome.applications_add, hpasses,
        happlied]

/-! ### The whole run -/

/-- **A rule that replaces targets by themselves changes nothing.**  With `-> $0` behind it, a
pattern that has no template becomes a rule.  Run once, it replaces all that the pattern finds and
skips nothing.  Repeated, it gives up after as many passes as are allowed if there is a match, and
ends well if there is none.  Either way the document has the root and the nodes that it had, whether
matches may overlap or not. -/
theorem run_target (h : CompiledPattern.read text settings = .ok p) (hnone : p.template = none)
    (r : Runner) (hcheck : r.predicates.check p = .ok ()) (hd : d.Whole) :
    let found := p.findAll d.forest r.predicates r.settings d.root
    (∃ rule, Rule.read (text ++ " -> $0") .once settings = .ok rule ∧
      ∃ d', r.run rule d =
          (d', .ok { applications := found.length, passes := 1, skipped := 0 }) ∧ d.Same d') ∧
    ∃ rule, Rule.read (text ++ " -> $0") .repeatedly settings = .ok rule ∧
      ∃ d' answer, r.run rule d = (d', answer) ∧ d.Same d' ∧
        (found = [] → answer = .ok { applications := 0, passes := 1, skipped := 0 }) ∧
        (found ≠ [] → answer = .error (.didNotConverge r.settings.maxPasses
          (r.settings.maxPasses * found.length))) := by
  intro found
  refine ⟨?_, ?_⟩
  · obtain ⟨rule, hread, hrule⟩ := Rule.exists_completes_target h hnone .once
    obtain ⟨d', hpass, hsame⟩ := pass_target (r := r) hrule hd
    refine ⟨rule, hread, d', ?_, hsame⟩
    rw [hrule.run_of_pass hcheck hpass, hrule.found_eq, Outcome.add]
    simp only [Nat.zero_add, found]
  · obtain ⟨rule, hread, hrule⟩ := Rule.exists_completes_target h hnone .repeatedly
    refine ⟨rule, hread, ?_⟩
    rw [hrule.run_eq_repeatPasses hcheck]
    have hfound : r.found rule d = found := hrule.found_eq r d
    by_cases hnil : found = []
    · refine ⟨d, _, repeatPasses_of_found_eq_nil (hfound.trans hnil) {} _, .refl d, fun _ => rfl,
        fun hne => absurd hnil hne⟩
    · obtain ⟨d', hrest, hsame⟩ := repeatPasses_target hrule hd (by rwa [hfound]) {}
        r.settings.maxPasses
      refine ⟨d', _, hrest, hsame, fun heq => absurd heq hnil, fun _ => ?_⟩
      rw [hfound, Nat.zero_add, Nat.zero_add]

open CompiledPattern in
/-- Where matches may overlap, the root and the leaf beneath it are replaced by themselves. -/
theorem run_target_nested :
    (∃ rule, Rule.read ("x:a &$x*" ++ " -> $0") .once {} = .ok rule ∧
      ∃ d', overlapping.run rule nested = (d', .ok ⟨2, 1, 0⟩) ∧ nested.Same d') ∧
    ∃ rule, Rule.read ("x:a &$x*" ++ " -> $0") .repeatedly {} = .ok rule ∧
      ∃ d', overlapping.run rule nested = (d', .error (.didNotConverge 100 200)) ∧
        nested.Same d' := by
  obtain ⟨⟨once, hread, d₁, hrun, hsame⟩, rule, hread', d₂, answer, hrun', hsame', -, hmore⟩ :=
    run_target read_alikeSiblings rfl overlapping rfl whole_nested
  rw [show overlapping.predicates = {} from rfl, findAll_nested] at hrun hmore
  rw [hmore (List.cons_ne_nil _ _)] at hrun'
  exact ⟨⟨once, hread, d₁, hrun, hsame⟩, rule, hread', d₂, hrun', hsame'⟩

end Runner

end TreeRules
