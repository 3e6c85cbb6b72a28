/-
Loops and what they are written out to.

A body that is repeated without bound cannot be empty, so every round of it consumes a node.  A way
stays in the tree in which it starts and has no node twice.  So it goes round no more often than the
tree has nodes, and a repetition that may go round as often as that gives the same ways in the same
order as one without bound: where it would have to stop, there is no node left to go on to.

That holds within other repetitions as well, since what one round gives is told by the way that it
begins with.
-/
import TreeRules.Proofs.Forest.Preorder
import TreeRules.Proofs.Matching.Captured
import TreeRules.Proofs.Pattern.Unrolled

namespace TreeRules

/-! ### Rounds that come to the same -/

namespace Way

variable {once once' : Way → List Way} {kept : Way → Prop}

theorem rounds_congr (hkept : ∀ w w', kept w → w' ∈ once w → kept w')
    (h : ∀ w, kept w → once' w = once w) (count : Nat) :
    ∀ w, kept w → rounds once' count w = rounds once count w := by
  induction count with
  | zero => exact fun _ _ => rfl
  | succ count ih =>
      intro w hw
      rw [rounds, rounds, h w hw]
      exact List.flatMap_congr fun v hv => ih v (hkept w v hw hv)

theorem upTo_congr (hkept : ∀ w w', kept w → w' ∈ once w → kept w')
    (h : ∀ w, kept w → once' w = once w) (greedy : Bool) (count : Nat) :
    ∀ w, kept w → upTo once' greedy count w = upTo once greedy count w := by
  induction count with
  | zero => exact fun _ _ => rfl
  | succ count ih =>
      intro w hw
      have hmore : (once w).flatMap (upTo once' greedy count) =
          (once w).flatMap (upTo once greedy count) :=
        List.flatMap_congr fun v hv => ih v (hkept w v hw hv)
      rw [upTo, upTo, h w hw, hmore]

end Way

namespace Scene

variable {s : Scene} {declared names : List String} {axis : Axis} {root : NodeId} {w w' : Way}
  {most extra : Nat}

/-- As many rounds as there can be nodes are as good as more. -/
theorem upTo_eq_of_le {once : Way → List Way} {kept : Way → Prop} (greedy : Bool)
    (hkept : ∀ w w', kept w → w' ∈ once w → kept w') (hmost : ∀ w, kept w → w.log.length ≤ most)
    (hlt : ∀ w w', w' ∈ once w → w.log.length < w'.log.length) {count : Nat}
    (hcount : most ≤ count) (hw : kept w) :
    Way.upTo once greedy count w = Way.upTo once greedy most w := by
  induction count, hcount using Nat.le_induction with
  | base => rfl
  | succ count hcount ih =>
      rw [upTo_succ_eq greedy hkept hmost hlt count w hw (Nat.le_add_right_of_le hcount), ih]

/-! ### As long as a way can be -/

/-- The start lies in the tree of `root`, which has `most` nodes at most. -/
structure Spans (s : Scene) (root : NodeId) (most : Nat) : Prop where
  wellFormed : s.forest.WellFormed
  isRoot : s.forest.parent root = none
  start : s.forest.Within s.start root
  length_le : (s.forest.preorder root).length ≤ most

/-- A way that has not left the tree of `root`, and has no node twice. -/
structure Stays (f : Forest) (root : NodeId) (w : Way) : Prop extends InTree f root w where
  nodup : (w.log.map Consumed.node).Nodup

theorem stays_empty (f : Forest) (root : NodeId) : Stays f root {} where
  here := fun n hn => absurd hn.symm (Option.some_ne_none n)
  log := fun _ hc => absurd hc List.not_mem_nil
  nodup := List.nodup_nil

/-- What is not consumed twice so far is not consumed twice later on. -/
theorem Leads.nodup (h : s.Leads declared w w') (hw : (w.log.map Consumed.node).Nodup) :
    (w'.log.map Consumed.node).Nodup := by
  induction h with
  | refl => exact hw
  | consume hn _ _ ih => exact ih (List.nodup_cons.mpr ⟨(mem_choices hn).2, hw⟩)
  | climb _ _ _ ih => exact ih hw

theorem Leads.stays (hs : s.Spans root most) (h : s.Leads declared w w')
    (hw : Stays s.forest root w) : Stays s.forest root w' where
  toInTree := h.inTree hs.wellFormed hs.isRoot hs.start hw.toInTree
  nodup := h.nodup hw.nodup

theorem stays_of_mem_mean (hs : s.Spans root most) {p : Pattern} (hw : Stays s.forest root w)
    (h : w' ∈ s.mean names axis p w) : Stays s.forest root w' := by
  obtain ⟨declared, hleads⟩ := exists_leads_of_mem_mean s names axis p
  exact (hleads w w' h).stays hs hw

/-- **A way has no more nodes than its tree.** -/
theorem Stays.length_le (hf : s.forest.WellFormed) (hw : Stays s.forest root w) :
    w.log.length ≤ (s.forest.preorder root).length := by
  have hsub : w.log.map Consumed.node ⊆ s.forest.preorder root := by
    intro n hn
    obtain ⟨c, hc, rfl⟩ := List.mem_map.mp hn
    exact hf.mem_preorder_iff.mpr (hw.log c hc)
  simpa using (List.subperm_of_subset hw.nodup hsub).length_le

/-- A tree has no more nodes than a body may have rounds. -/
theorem length_preorder_le (hf : s.forest.WellFormed) (root : NodeId) :
    (s.forest.preorder root).length ≤ s.mostRounds := by
  have hsub : s.forest.preorder root ⊆ root :: List.range s.forest.size := by
    intro n hn
    rcases Forest.within_cases (hf.mem_preorder_iff.mp hn) with rfl | ⟨p, hp, -⟩
    · exact List.mem_cons_self
    · exact List.mem_cons_of_mem root (List.mem_range.mpr (Forest.lt_size_of_parent hp))
  have := (List.subperm_of_subset (hf.nodup_preorder root) hsub).length_le
  simpa [mostRounds] using this

/-! ### What a loop is written out to -/

/-- The rounds beyond those that are asked for, where the body gives the same when it is written
out. -/
theorem upTo_extraRounds (hs : s.Spans root extra) {body body' : Pattern} {max : Option Nat}
    (hbody : max = none → body.canBeEmpty = false)
    (hsame : ∀ w, Stays s.forest root w → s.mean names axis body' w = s.mean names axis body w)
    (min : Nat) (greedy : Bool) (hw : Stays s.forest root w) :
    Way.upTo (s.mean names axis body') greedy (s.extraRounds min (some (max.getD (min + extra)))) w =
      Way.upTo (s.mean names axis body) greedy (s.extraRounds min max) w := by
  have hkept : ∀ w w', Stays s.forest root w → w' ∈ s.mean names axis body w →
      Stays s.forest root w' :=
    fun w w' hw h => stays_of_mem_mean hs hw h
  rw [Way.upTo_congr hkept hsame greedy _ w hw]
  cases max with
  | some max => rfl
  | none =>
      -- both bounds are as many as the tree has nodes, or more
      have hmost : ∀ w, Stays s.forest root w → w.log.length ≤ (s.forest.preorder root).length :=
        fun w hw => hw.length_le hs.wellFormed
      have hlt : ∀ w w', w' ∈ s.mean names axis body w → w.log.length < w'.log.length :=
        fun w w' => length_lt_of_mem_mean body w w' (hbody rfl)
      rw [extraRounds, extraRounds, Option.getD_none, Nat.add_sub_cancel_left,
        upTo_eq_of_le greedy hkept hmost hlt hs.length_le hw,
        upTo_eq_of_le greedy hkept hmost hlt (length_preorder_le hs.wellFormed root) hw]

mutual

/-- **A pattern whose loops are written out continues a way in the same ways, in the same order.** -/
theorem mean_unrolled (hs : s.Spans root extra) :
    ∀ {p : Pattern}, p.Proper → ∀ (names : List String) (axis : Axis) (w : Way),
      Stays s.forest root w → s.mean names axis (p.unrolled extra) w = s.mean names axis p w
  | .test _, _, _, _, _, _ | .anchor _, _, _, _, _, _ | .parent, _, _, _, _, _ => rfl
  | .sequence steps, hp, names, axis, w, hw => by
      rw [Pattern.Proper] at hp
      rw [Pattern.unrolled, mean, mean]
      exact meanSteps_unrolled hs hp names axis w hw
  | .alternation branches, hp, names, axis, w, hw => by
      rw [Pattern.Proper] at hp
      rw [Pattern.unrolled, mean, mean]
      exact meanBranches_unrolled hs hp.2 names axis w hw
  | .repetition body min max greedy, hp, names, axis, w, hw => by
      rw [Pattern.Proper] at hp
      have hsame := mean_unrolled hs hp.2 names axis
      have hkept : ∀ w w', Stays s.forest root w → w' ∈ s.mean names axis body w →
          Stays s.forest root w' :=
        fun w w' hw h => stays_of_mem_mean hs hw h
      have hrounds : ∀ v ∈ Way.rounds (s.mean names axis body) min w, Stays s.forest root v := by
        intro v hv
        obtain ⟨declared, hleads⟩ := exists_leads_of_mem_mean s names axis body
        exact (leads_of_mem_rounds hleads min w hv).stays hs hw
      rw [Pattern.unrolled, mean, mean, Way.rounds_congr hkept hsame min w hw]
      exact List.flatMap_congr fun v hv =>
        upTo_extraRounds hs hp.1 hsame min greedy (hrounds v hv)
  | .capture name body, hp, names, axis, w, hw => by
      rw [Pattern.Proper] at hp
      rw [Pattern.unrolled, mean, mean]
      exact mean_unrolled hs hp (names ++ [name]) axis w hw

theorem meanSteps_unrolled (hs : s.Spans root extra) :
    ∀ {steps : List (Option Axis × Pattern)}, Pattern.ProperSteps steps →
      ∀ (names : List String) (axis : Axis) (w : Way), Stays s.forest root w →
        s.meanSteps names axis (Pattern.unrolledSteps extra steps) w =
          s.meanSteps names axis steps w
  | [], _, _, _, _, _ => rfl
  | (own, step) :: steps, hp, names, axis, w, hw => by
      rw [Pattern.ProperSteps] at hp
      rw [Pattern.unrolledSteps, meanSteps, meanSteps,
        mean_unrolled hs hp.1 names (own.getD axis) w hw]
      exact List.flatMap_congr fun v hv =>
        meanSteps_unrolled hs hp.2 names axis v (stays_of_mem_mean hs hw hv)

theorem meanBranches_unrolled (hs : s.Spans root extra) :
    ∀ {branches : List Pattern}, Pattern.ProperBranches branches →
      ∀ (names : List String) (axis : Axis) (w : Way), Stays s.forest root w →
        s.meanBranches names axis (Pattern.unrolledBranches extra branches) w =
          s.meanBranches names axis branches w
  | [], _, _, _, _, _ => rfl
  | branch :: branches, hp, names, axis, w, hw => by
      rw [Pattern.ProperBranches] at hp
      rw [Pattern.unrolledBranches, meanBranches, meanBranches,
        mean_unrolled hs hp.1 names axis w hw, meanBranches_unrolled hs hp.2 names axis w hw]

end

theorem results_unrolled (hs : s.Spans root extra) {p : Pattern} (hp : p.Proper) :
    s.results (p.unrolled extra) = s.results p := by
  rw [results, results, mean_unrolled hs hp [] .child {} (stays_empty s.forest root)]

end Scene

namespace CompiledPattern

variable {text : String} {settings : Settings} {p : CompiledPattern}

/-- **A loop gives what it is written out to.**  If each repetition of a pattern without bound is
written out as many times, beyond those that are asked for, as the tree has nodes, or more, the
machine gives the same solutions in the same order, and they are read as the same matches. -/
theorem solutions_of_unrolled (h : read text settings = .ok p) (scene : Scene)
    (hf : scene.forest.WellFormed) {root : NodeId} (hroot : scene.forest.parent root = none)
    (hstart : scene.forest.Within scene.start root) {extra : Nat}
    (hextra : (scene.forest.preorder root).length ≤ extra) :
    ∃ solutions,
      (p.search scene).Solutions (.resuming Search.initial) solutions ∧
      (Search.mk scene (p.pattern.unrolled extra).compile).Solutions
        (.resuming Search.initial) solutions ∧
      ∀ visits, Match.ofVisits? (p.pattern.unrolled extra).compile visits =
        Match.ofVisits? p.program visits := by
  obtain ⟨hproper, hprogram⟩ := of_read h
  have hpos : 0 < extra := by
    have hmem : root ∈ scene.forest.preorder root := hf.mem_preorder_iff.mpr (.refl root)
    exact Nat.lt_of_lt_of_le (List.length_pos_of_mem hmem) hextra
  have hslots := Pattern.captureSlots_unrolled hpos p.pattern
  have hsolutions := Search.solutions_of_compile
    (s := Search.mk scene (p.pattern.unrolled extra).compile) hf
    (Pattern.proper_unrolled hproper) rfl
  have hnames : (Search.mk scene (p.pattern.unrolled extra).compile).names =
      (p.search scene).names := by
    rw [Search.names_of_compile rfl, names_search h, hslots]
  rw [hnames] at hsolutions
  refine ⟨_, solutions_search h scene hf, ?_, fun visits => ?_⟩
  · rw [← Scene.results_unrolled ⟨hf, hroot, hstart, hextra⟩ hproper]
    exact hsolutions
  · have hcaptures : (p.pattern.unrolled extra).compile.captures = p.program.captures := by
      rw [hprogram]
      exact hslots
    rw [Match.ofVisits?, Match.ofVisits?, hcaptures]

/-- Siblings that look alike, without bound or up to four of them: in a tree of four nodes it makes
no difference. -/
theorem solutions_of_unrolled_threeAlike :
    ∃ solutions,
      (Search.mk ⟨threeAlike.forest, {}, 0, 1⟩ (alikeSiblings.pattern.unrolled 4).compile).Solutions
        (.resuming Search.initial) solutions ∧
      solutions.map (·.map (·.node)) = [[1, 2, 3], [1, 2], [1, 3, 2], [1, 3], [1]] := by
  have hparent : threeAlike.forest.parent 1 = some 0 := by decide +kernel
  have hsize : (threeAlike.forest.preorder 0).length ≤ 4 := by decide +kernel
  obtain ⟨solutions, hsolutions, hunrolled, -⟩ := solutions_of_unrolled read_alikeSiblings
    ⟨threeAlike.forest, {}, 0, 1⟩ wellFormed_threeAlike (by decide +kernel)
    (.of_parent hparent (.refl 0)) hsize
  rw [hsolutions.unique (solutions_search read_alikeSiblings _ wellFormed_threeAlike)] at hunrolled
  exact ⟨_, hunrolled, by decide +kernel⟩

end CompiledPattern

end TreeRules
