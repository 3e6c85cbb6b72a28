/-
Repeating a deletion comes to an end.

An empty template takes the target out and puts nothing in its place.  The target leaves the document
with all that lies beneath it and no node comes in, so every replacement makes the document smaller.
A pass that finds anything replaces its first match, which has lost no node, whatever else it skips.
And the root never leaves: it takes exactly one node to replace it, so a match whose target is the
root is refused.  Hence of the passes allowed there need be no more than the document has nodes: each
but the last deletes a node other than the root, and the last finds nothing.

The refusal is no accident of how a run goes.  Passes are determined by the document, so a run is
refused exactly if passes lead to a match whose target is the root.
-/
import TreeRules.Proofs.Forest.Preorder
import TreeRules.Proofs.Rule.Completed
import TreeRules.Proofs.Rule.Refusal

namespace TreeRules

/-! ### One deletion -/

theorem Template.rootCount_nothing (m : Match) : nothing.rootCount m = 0 := rfl

namespace Document

variable {d d' d'' : Document} {m : Match} {matched : List Match} {count count' : Nat}
  {t : Tally} {answer : Except ApplyError Tally}

theorem Whole.length_preorder_pos (hd : d.Whole) : 0 < d.preorder.length :=
  List.length_pos_of_mem (hd.wellFormed.mem_preorder_iff.mpr (Forest.Within.refl d.root))

/-- What is left of the first document when at least so many of its nodes are gone. -/
structure Pruned (count : Nat) (d d' : Document) : Prop where
  whole : d'.Whole
  root : d'.root = d.root
  subset : d'.preorder ⊆ d.preorder
  length : d'.preorder.length + count ≤ d.preorder.length

namespace Pruned

theorem refl (hd : d.Whole) : Pruned 0 d d := ⟨hd, rfl, List.Subset.refl _, Nat.le_refl _⟩

theorem trans (h : Pruned count d d') (h' : Pruned count' d' d'') :
    Pruned (count + count') d d'' where
  whole := h'.whole
  root := h'.root.trans h.root
  subset := List.Subset.trans h'.subset h.subset
  length := by
    have hlength := h.length
    have hlength' := h'.length
    omega

end Pruned

/-- **A target that is replaced by nothing** leaves the document, unless it is the root. -/
theorem Whole.apply_nothing (hd : d.Whole) (hm : d.Fits m) (hroot : m.target ≠ d.root) :
    ∃ d' applied, (Replacement.template .nothing).apply d m = (d', .ok applied) ∧
      Pruned 1 d d' := by
  have hin := hm.within m.target hm.target_mem
  obtain ⟨p, hp⟩ := exists_parent_of_ne_root hin hroot
  obtain ⟨d', applied, happly, hintact⟩ := (Intact.refl hd).apply hd hm
    (fun k hk => absurd hk List.not_mem_nil) hroot .nothing
  have hwhole : d'.Whole := hintact.whole hd fun k hk => by rwa [List.mem_singleton.mp hk]
  have hparent : ∀ n, d'.forest.parent n = (d.forest.detach m.target).parent n := by
    intro n
    rw [Replacement.apply_template_of_parent hp, Replacement.applyTemplate_eq hp] at happly
    obtain rfl := (Prod.mk.inj happly).1
    rw [Forest.parent, Replacement.nodes_report]
    rfl
  have hup : ∀ x y, d'.forest.Up x y → d.forest.Up x y := fun x y h =>
    Forest.up_of_up_detach ((hparent x).symm.trans h)
  have hsubset : d'.preorder ⊆ d.preorder := by
    intro n hn
    rw [preorder, hwhole.wellFormed.mem_preorder_iff, hintact.root] at hn
    rw [preorder, hd.wellFormed.mem_preorder_iff]
    exact Relation.ReflTransGen.mono hup n d.root hn
  have hgone : m.target ∉ d'.preorder := by
    rw [preorder, hwhole.wellFormed.mem_preorder_iff, hintact.root]
    intro hw
    refine hroot (Forest.eq_of_within_of_parent_none ?_ hw)
    rw [hparent, Forest.parent_detach, if_pos rfl]
  refine ⟨d', applied, happly, hwhole, hintact.root, hsubset, ?_⟩
  -- the target and all that is left are different nodes of the first document
  have hnodup : (m.target :: d'.preorder).Nodup :=
    List.nodup_cons.mpr ⟨hgone, hwhole.wellFormed.nodup_preorder _⟩
  refine (hnodup.subperm (List.cons_subset.mpr ⟨?_, hsubset⟩)).length_le
  exact hd.wellFormed.mem_preorder_iff.mpr hin

/-- **Each replacement takes away one node more.** -/
theorem Whole.replaceAll_nothing (hd : d.Whole) (hmatched : ∀ m ∈ matched, m.target ∈ m.consumed)
    (h : Runner.replaceAll (.template .nothing) d t matched = (d', answer)) :
    ∃ count, Pruned count d d' ∧ ∀ t', answer = .ok t' →
      t'.applications = t.applications + count := by
  induction matched generalizing d t with
  | nil =>
      cases h
      refine ⟨0, .refl hd, ?_⟩
      rintro _ ⟨⟩
      rfl
  | cons m rest ih =>
      rw [List.forall_mem_cons] at hmatched
      rw [Runner.replaceAll] at h
      split at h
      · rename_i hattached
        have hm := (hd.stillAttached_iff hmatched.1).mp hattached
        by_cases hroot : m.target = d.root
        · rw [apply_root hroot, Replacement.applyTemplate_of_refused .nothing
            (by rw [hroot]; exact hd.parent_root)
            (by rw [Template.rootCount_nothing]; exact Nat.zero_ne_one)] at h
          cases h
          exact ⟨0, .refl hd, by rintro _ ⟨⟩⟩
        · obtain ⟨d₁, applied, happly, hpruned⟩ := hd.apply_nothing hm hroot
          rw [happly] at h
          obtain ⟨count, hrest, htally⟩ := ih hpruned.whole hmatched.2 h
          refine ⟨1 + count, hpruned.trans hrest, fun t' ht' => ?_⟩
          rw [htally t' ht', Nat.add_assoc]
      · obtain ⟨count, hrest, htally⟩ := ih hd hmatched.2 h
        exact ⟨count, hrest, htally⟩

end Document

namespace Runner

variable {text : String} {settings : Settings} {p : CompiledPattern} {r : Runner} {rule : Rule}
  {mode : Mode} {d d' : Document} {o : Outcome} {t : Tally} {left : Nat}

/-! ### One pass -/

theorem pruned_of_pass (hrule : rule.Completes p .nothing mode) (hd : d.Whole)
    {answer : Except ApplyError Tally} (h : r.pass rule d = (d', answer)) :
    ∃ count, Document.Pruned count d d' ∧ ∀ t, answer = .ok t → t.applications = count := by
  rw [pass_eq_replaceAll, hrule.replacement] at h
  obtain ⟨count, hpruned, htally⟩ :=
    hd.replaceAll_nothing (target_mem_of_found hd hrule.templated) h
  exact ⟨count, hpruned, fun t ht => (htally t ht).trans (Nat.zero_add count)⟩

/-- **A pass that finds anything** takes away a node. -/
theorem pruned_of_finding_pass (hrule : rule.Completes p .nothing mode) (hd : d.Whole)
    (h : r.pass rule d = (d', .ok t)) (hfound : r.found rule d ≠ []) :
    d'.preorder.length < d.preorder.length := by
  obtain ⟨count, hpruned, htally⟩ := pruned_of_pass hrule hd h
  have hlength := hpruned.length
  have hcount := htally t rfl
  have hpos : t.applications ≠ 0 := fun hzero =>
    hfound ((stage_pass hd hrule.templated h).idle hzero).2
  omega

/-! ### All passes -/

/-- **As many passes as there are nodes are enough.** -/
theorem ends_of_repeatPasses_nothing (hrule : rule.Completes p .nothing mode) (hd : d.Whole)
    (hleft : d.preorder.length ≤ left) {answer : Except RunError Outcome}
    (h : r.repeatPasses rule d o left = (d', answer)) :
    (∃ count, Document.Pruned count d d') ∧
      ((∃ o', answer = .ok o' ∧ o'.passes ≤ o.passes + d.preorder.length) ∨
        ∃ e, answer = .error (.apply e)) := by
  induction left generalizing d o with
  | zero => exact absurd hleft (Nat.not_le.mpr hd.length_preorder_pos)
  | succ left ih =>
      rw [repeatPasses] at h
      split at h
      · rename_i d₁ e hpass
        cases h
        obtain ⟨count, hpruned, -⟩ := pruned_of_pass hrule hd hpass
        exact ⟨⟨count, hpruned⟩, .inr ⟨e, rfl⟩⟩
      · rename_i d₁ t hpass
        obtain ⟨count, hpruned, -⟩ := pruned_of_pass hrule hd hpass
        split at h
        · cases h
          exact ⟨⟨count, hpruned⟩, .inl ⟨_, rfl, Nat.add_le_add_left hd.length_preorder_pos _⟩⟩
        · rename_i hmore
          rw [found_eq_nil_iff_of_pass hpass] at hmore
          have hlt := pruned_of_finding_pass hrule hd hpass hmore
          obtain ⟨⟨count', hpruned'⟩, hends⟩ := ih hpruned.whole (by omega) h
          refine ⟨⟨_, hpruned.trans hpruned'⟩, hends.imp_left ?_⟩
          rintro ⟨o', rfl, hpasses⟩
          refine ⟨o', rfl, ?_⟩
          rw [Outcome.passes_add] at hpasses
          omega

/-! ### The whole run -/

/-- **A repeated deletion comes to an end.**  With `->` and nothing behind it, a pattern that has no
template becomes a rule.  If as many passes are allowed as the document has nodes, repeating it ends
well after no more passes than that, with no match left, or it is refused because a match's target is
the root, and that exactly if passes lead to such a match.  What is left is part of the document. -/
theorem run_nothing (h : CompiledPattern.read text settings = .ok p) (hnone : p.template = none)
    (r : Runner) (hcheck : r.predicates.check p = .ok ()) (hd : d.Whole)
    (hlimit : d.preorder.length ≤ r.settings.maxPasses) :
    ∃ rule, Rule.read (text ++ " -> ") .repeatedly settings = .ok rule ∧
      ∃ d' answer, r.run rule d = (d', answer) ∧ d'.root = d.root ∧ d'.preorder ⊆ d.preorder ∧
        ((∃ o, answer = .ok o ∧ o.passes ≤ d.preorder.length ∧
            p.findAll d'.forest r.predicates r.settings d'.root = []) ∨
          answer = .error (.apply (.invalidRootReplacement d.root 0))) ∧
        (answer = .error (.apply (.invalidRootReplacement d.root 0)) ↔
          ∃ d₁ d₂ m, r.Passes [rule] d d₁ ∧ r.Refuses rule .nothing d₁ d₂ m) := by
  obtain ⟨rule, hread, hrule⟩ := Rule.exists_completes_nothing h hnone .repeatedly
  have hrules : ∀ rule' ∈ [rule], rule'.Templated := List.forall_mem_singleton.mpr hrule.templated
  have hrun := hrule.run_eq_repeatPasses (d := d) hcheck
  obtain ⟨d', answer, hpasses⟩ : ∃ d' answer,
      r.repeatPasses rule d {} r.settings.maxPasses = (d', answer) := ⟨_, _, rfl⟩
  obtain ⟨⟨count, hpruned⟩, hends⟩ := ends_of_repeatPasses_nothing hrule hd hlimit hpasses
  have hrefused : ∀ e, answer = .error (.apply e) → e = .invalidRootReplacement d.root 0 ∧
      ∃ d₁ d₂ m, r.Passes [rule] d d₁ ∧ r.Refuses rule .nothing d₁ d₂ m := by
    intro e he
    obtain ⟨rule', hmem, template, d₁, m, hd₁, hm, heq⟩ :=
      (ends_repeatPasses hd hrules List.mem_cons_self hpasses).exists_of_apply he
    obtain rfl := List.mem_singleton.mp hmem
    obtain rfl : template = .nothing :=
      Replacement.template.inj (hm.replacement.symm.trans hrule.replacement)
    refine ⟨?_, d₁, d', m, hd₁, hm⟩
    rw [heq, hpruned.root, Template.rootCount_nothing]
  refine ⟨rule, hread, d', answer, hrun.trans hpasses, hpruned.root, hpruned.subset, ?_, ?_⟩
  · rcases hends with ⟨o, rfl, hle⟩ | ⟨e, he⟩
    · rw [Nat.zero_add] at hle
      rw [← hrule.found_eq]
      exact .inl ⟨o, rfl, hle, (found_eq_nil_of_repeatPasses hpasses).1⟩
    · rw [he, (hrefused e he).1]
      exact .inr rfl
  · refine ⟨fun he => (hrefused _ he).2, fun ⟨d₁, d₂, m, hd₁, hm⟩ => ?_⟩
    rcases hends with ⟨o, rfl, -⟩ | ⟨e, he⟩
    · exact absurd hm (not_refuses_of_repeatPasses hd hrule.templated hpasses hd₁)
    · rw [he, (hrefused e he).1]

open CompiledPattern in
/-- One pass takes three alike siblings away and another finds nothing.  Where matches may overlap, a
match at the root is refused at once. -/
theorem run_nothing_alike :
    (∃ rule, Rule.read ("x:a &$x*" ++ " -> ") .repeatedly {} = .ok rule ∧
      ∃ d', ({} : Runner).run rule threeAlike = (d', .ok ⟨3, 2, 0⟩) ∧
        2 ≤ threeAlike.preorder.length ∧ d'.preorder ⊆ threeAlike.preorder) ∧
    ∃ rule, Rule.read ("x:a &$x*" ++ " -> ") .repeatedly {} = .ok rule ∧
      ∃ d', overlapping.run rule nested = (d', .error (.apply (.invalidRootReplacement 0 0))) ∧
        d'.preorder ⊆ nested.preorder := by
  obtain ⟨rule, hread, hrule⟩ :=
    Rule.exists_completes_nothing read_alikeSiblings rfl .repeatedly
  constructor
  · obtain ⟨rule', hread', d', answer, hrun, -, hsubset, hends, -⟩ :=
      run_nothing read_alikeSiblings rfl {} rfl whole_threeAlike (by decide +kernel)
    obtain rfl := Except.ok.inj (hread.symm.trans hread')
    let cleared := (replaceAll (.template .nothing) threeAlike {} threeAlikeMatches).1
    have hpass : ({} : Runner).pass rule threeAlike = (cleared, .ok ⟨3, 0⟩) := by
      rw [pass_eq_replaceAll, hrule.replacement, (hrule.found_eq _ _).trans findAll_threeAlike]
      rfl
    have hcleared : cleared.Whole := whole_of_pass whole_threeAlike hrule.templated hpass
    have hnone : ({} : Runner).found rule cleared = [] := by
      refine (hrule.found_eq _ _).trans ?_
      refine (findAll_eq_take read_alikeSiblings hcleared.wellFormed).trans ?_
      decide +kernel
    have hall : ({} : Runner).run rule threeAlike = (cleared, .ok ⟨3, 2, 0⟩) := by
      rw [hrule.run_eq_repeatPasses rfl, repeatPasses, hpass]
      dsimp only
      rw [if_neg (by decide), repeatPasses_of_found_eq_nil hnone]
      rfl
    obtain ⟨rfl, rfl⟩ := Prod.mk.inj (hall.symm.trans hrun)
    obtain ⟨o, ho, hle, -⟩ | herror := hends
    · obtain rfl := Except.ok.inj ho
      exact ⟨rule, hread, cleared, hall, hle, hsubset⟩
    · cases herror
  · obtain ⟨rule', hread', d', answer, hrun, -, hsubset, -, hrefused⟩ :=
      run_nothing read_alikeSiblings rfl overlapping rfl whole_nested (by decide +kernel)
    obtain rfl := Except.ok.inj (hread.symm.trans hread')
    have hfits : nested.Fits ⟨0, 0, [0], [("x", .single 0)]⟩ := by
      refine fits_of_mem_findAll (r := overlapping) read_alikeSiblings whole_nested ?_
      rw [show overlapping.predicates = {} from rfl, findAll_nested]
      exact List.mem_cons_self
    have hanswer := hrefused.mpr ⟨nested, nested, _, .refl, hrule.replacement,
      ⟨[], _, {}, (hrule.found_eq _ _).trans findAll_nested, rfl⟩, hfits, rfl, Nat.zero_ne_one⟩
    rw [hanswer] at hrun
    exact ⟨rule, hread, d', hrun, hsubset⟩

end Runner

end TreeRules
