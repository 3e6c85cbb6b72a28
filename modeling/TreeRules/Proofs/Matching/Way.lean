/-
How the ways through a pattern go on.

Whatever a pattern does to a way is done in small steps: a node along some axis is consumed, or the
way climbs to a parent.  `Leads` is that, and everything about ways is shown of one small step:

  * No node is consumed twice, and all but the start are nodes of the forest.  So a way is never
    longer than the forest allows, which is what ends the rounds of an unbounded repetition.
  * A way stays in the tree in which it starts, whatever axes it follows and however far it climbs.
  * What has been consumed stays consumed, and a pattern that cannot be empty adds to it.
-/
import Mathlib.Data.List.Perm.Subperm
import TreeRules.Proofs.Matching.Meaning
import TreeRules.Proofs.Pattern.Captures

namespace TreeRules

/-! ### Round after round -/

namespace Way

variable {once : Way → List Way} {R : Way → Way → Prop}

/-- A relation that holds of each round, and of one part after another, holds of all rounds. -/
theorem rel_of_mem_rounds (hrefl : ∀ w, R w w) (htrans : ∀ u v w, R u v → R v w → R u w)
    (honce : ∀ w w', w' ∈ once w → R w w') (count : Nat) :
    ∀ w w', w' ∈ rounds once count w → R w w' := by
  induction count with
  | zero =>
      intro w w' h
      rw [rounds, List.mem_singleton] at h
      subst h
      exact hrefl w'
  | succ count ih =>
      intro w w' h
      rw [rounds, List.mem_flatMap] at h
      obtain ⟨v, hv, h⟩ := h
      exact htrans w v w' (honce w v hv) (ih v w' h)

theorem rel_of_mem_upTo {greedy : Bool} (hrefl : ∀ w, R w w)
    (htrans : ∀ u v w, R u v → R v w → R u w) (honce : ∀ w w', w' ∈ once w → R w w')
    (count : Nat) : ∀ w w', w' ∈ upTo once greedy count w → R w w' := by
  induction count with
  | zero =>
      intro w w' h
      rw [upTo, List.mem_singleton] at h
      subst h
      exact hrefl w'
  | succ count ih =>
      intro w w' h
      have hor : w' ∈ (once w).flatMap (upTo once greedy count) ∨ w' = w := by
        rw [upTo] at h
        cases greedy with
        | true => simpa using h
        | false => exact (List.mem_cons.mp h).symm
      rcases hor with h | rfl
      · obtain ⟨v, hv, h⟩ := List.mem_flatMap.mp h
        exact htrans w v w' (honce w v hv) (ih v w' h)
      · exact hrefl w'

end Way

namespace Scene

variable {s : Scene} {declared names : List String} {axis : Axis} {w w' w'' : Way}

/-- One way can be continued to the other by consuming nodes under declared names and by climbing to
parents. -/
inductive Leads (s : Scene) (declared : List String) : Way → Way → Prop
  | refl (w : Way) : Leads s declared w w
  | consume {w w' : Way} {axis : Axis} {test : NodeTest} {n : NodeId} {names : List String}
      (hn : n ∈ s.choices axis test w) (hnames : names ⊆ declared)
      (rest : Leads s declared (w.consume n names) w') : Leads s declared w w'
  | climb {w w' : Way} {n p : NodeId} (hn : w.here = some n) (hp : s.forest.parent n = some p)
      (rest : Leads s declared { w with here := some p } w') : Leads s declared w w'

theorem Leads.trans (h : s.Leads declared w w') (h' : s.Leads declared w' w'') :
    s.Leads declared w w'' := by
  induction h with
  | refl => exact h'
  | consume hn hnames _ ih => exact .consume hn hnames (ih h')
  | climb hn hp _ ih => exact .climb hn hp (ih h')

/-! ### A pattern leads on -/

theorem leads_of_mem_rounds {once : Way → List Way}
    (honce : ∀ w w', w' ∈ once w → s.Leads declared w w') (count : Nat) :
    ∀ w, w' ∈ Way.rounds once count w → s.Leads declared w w' :=
  fun w => Way.rel_of_mem_rounds .refl (fun _ _ _ => .trans) honce count w w'

theorem leads_of_mem_upTo {once : Way → List Way} {greedy : Bool}
    (honce : ∀ w w', w' ∈ once w → s.Leads declared w w') (count : Nat) :
    ∀ w, w' ∈ Way.upTo once greedy count w → s.Leads declared w w' :=
  fun w => Way.rel_of_mem_upTo .refl (fun _ _ _ => .trans) honce count w w'

mutual

/-- **A pattern only ever leads on.** -/
theorem leads_of_mem_mean {names : List String} {axis : Axis} (hnames : names ⊆ declared) :
    ∀ (p : Pattern) (w w' : Way), p.recorded ⊆ declared → w' ∈ s.mean names axis p w →
      s.Leads declared w w'
  | .test asked, w, w', _, h => by
      rw [mean, List.mem_map] at h
      obtain ⟨n, hn, rfl⟩ := h
      exact .consume hn hnames (.refl _)
  | .sequence steps, w, w', hp, h => by
      rw [mean] at h
      rw [Pattern.recorded] at hp
      exact leads_of_mem_meanSteps hnames steps w w' hp h
  | .alternation branches, w, w', hp, h => by
      rw [mean] at h
      rw [Pattern.recorded] at hp
      exact leads_of_mem_meanBranches hnames branches w w' hp h
  | .repetition body min max greedy, w, w', hp, h => by
      by_cases hnever : (min = 0 && max = some 0) = true
      · -- no time at all: the way stays where it is
        rw [Bool.and_eq_true, decide_eq_true_eq, decide_eq_true_eq] at hnever
        obtain ⟨rfl, rfl⟩ := hnever
        rw [mean_never, List.mem_singleton] at h
        subst h
        exact .refl _
      · rw [Pattern.recorded, if_neg hnever] at hp
        rw [mean, List.mem_flatMap] at h
        obtain ⟨v, hv, h⟩ := h
        have honce : ∀ w w', w' ∈ s.mean names axis body w → s.Leads declared w w' :=
          fun w w' => leads_of_mem_mean hnames body w w' hp
        exact (leads_of_mem_rounds honce min w hv).trans (leads_of_mem_upTo honce _ v h)
  | .capture name body, w, w', hp, h => by
      rw [mean] at h
      rw [Pattern.recorded, List.cons_subset] at hp
      refine leads_of_mem_mean ?_ body w w' hp.2 h
      exact List.append_subset.mpr ⟨hnames, List.cons_subset.mpr ⟨hp.1, List.nil_subset _⟩⟩
  | .anchor place, w, w', _, h => by
      rw [mean] at h
      split at h
      · rw [List.mem_singleton] at h
        subst h
        exact .refl _
      · simp at h
  | .parent, w, w', _, h => by
      rw [mean, List.mem_map] at h
      obtain ⟨p, hp, rfl⟩ := h
      rw [Option.mem_toList, Option.bind_eq_some_iff] at hp
      obtain ⟨n, hn, hp⟩ := hp
      exact .climb hn hp (.refl _)

theorem leads_of_mem_meanSteps {names : List String} {axis : Axis} (hnames : names ⊆ declared) :
    ∀ (steps : List (Option Axis × Pattern)) (w w' : Way),
      Pattern.recordedInSteps steps ⊆ declared → w' ∈ s.meanSteps names axis steps w →
      s.Leads declared w w'
  | [], w, w', _, h => by
      rw [meanSteps, List.mem_singleton] at h
      subst h
      exact .refl _
  | (own, step) :: steps, w, w', hp, h => by
      rw [meanSteps, List.mem_flatMap] at h
      rw [Pattern.recordedInSteps, List.append_subset] at hp
      obtain ⟨v, hv, h⟩ := h
      exact (leads_of_mem_mean hnames step w v hp.1 hv).trans
        (leads_of_mem_meanSteps hnames steps v w' hp.2 h)

theorem leads_of_mem_meanBranches {names : List String} {axis : Axis} (hnames : names ⊆ declared) :
    ∀ (branches : List Pattern) (w w' : Way),
      Pattern.recordedInBranches branches ⊆ declared → w' ∈ s.meanBranches names axis branches w →
      s.Leads declared w w'
  | [], w, w', _, h => by
      rw [meanBranches] at h
      simp at h
  | branch :: branches, w, w', hp, h => by
      rw [meanBranches, List.mem_append] at h
      rw [Pattern.recordedInBranches, List.append_subset] at hp
      rcases h with h | h
      · exact leads_of_mem_mean hnames branch w w' hp.1 h
      · exact leads_of_mem_meanBranches hnames branches w w' hp.2 h

end

/-! ### What is consumed stays consumed -/

theorem Leads.suffix (h : s.Leads declared w w') : w.log <:+ w'.log := by
  induction h with
  | refl => exact List.suffix_refl _
  | consume _ _ _ ih => exact (List.suffix_cons _ _).trans ih
  | climb _ _ _ ih => exact ih

theorem Leads.length_le (h : s.Leads declared w w') : w.log.length ≤ w'.log.length :=
  h.suffix.length_le

/-! ### No node is consumed twice -/

/-- A way that has come about by consuming. -/
structure Sound (s : Scene) (declared : List String) (w : Way) : Prop where
  /-- No node has been consumed twice. -/
  nodup : (w.log.map Consumed.node).Nodup
  /-- Only the start may lie outside the forest. -/
  inForest : ∀ c ∈ w.log, c.node = s.start ∨ c.node < s.forest.size
  /-- Nodes are captured under declared names only. -/
  names : ∀ c ∈ w.log, c.names ⊆ declared

theorem sound_empty (s : Scene) (declared : List String) : s.Sound declared {} where
  nodup := List.nodup_nil
  inForest := by intro c hc; simp at hc
  names := by intro c hc; simp at hc

/-- A node along an axis is a node of the forest. -/
theorem lt_size_of_mem_along {f : Forest} (hf : f.WellFormed) {n m : NodeId}
    (h : m ∈ f.along axis n) : m < f.size := by
  cases axis with
  | child => exact hf.lt_size_of_child h
  | descendant =>
      show m < f.size
      rw [Forest.along, hf.preorder_eq, List.tail_cons, List.mem_flatMap] at h
      obtain ⟨c, hc, h⟩ := h
      have hlt := hf.lt_size_of_child hc
      rcases Forest.within_cases (hf.mem_preorder_iff.mp h) with rfl | ⟨p, hp, -⟩
      · exact hlt
      · exact Forest.lt_size_of_parent hp
  | nextSibling =>
      rw [Forest.along, Option.mem_toList, Forest.nextSibling] at h
      simp only [Option.bind_eq_bind, Option.bind_eq_some_iff] at h
      obtain ⟨p, -, i, -, h⟩ := h
      exact hf.lt_size_of_child (List.mem_of_getElem? h)
  | anySibling =>
      rw [Forest.along, Forest.siblings] at h
      split at h
      · exact hf.lt_size_of_child (List.mem_of_mem_filter h)
      · simp at h

theorem mem_choices {test : NodeTest} {n : NodeId} (h : n ∈ s.choices axis test w) :
    n ∈ s.nearby axis w ∧ n ∉ w.log.map Consumed.node := by
  rw [choices, List.mem_filter, Bool.and_eq_true, Bool.not_eq_true'] at h
  refine ⟨h.1, fun hmem => ?_⟩
  obtain ⟨c, hc, hcn⟩ := List.mem_map.mp hmem
  have : w.consumed n = true := List.any_eq_true.mpr ⟨c, hc, by simpa using hcn⟩
  rw [h.2.2] at this
  exact Bool.noConfusion this

theorem sound_consume (hf : s.forest.WellFormed) {test : NodeTest} {n : NodeId}
    (hw : s.Sound declared w) (hn : n ∈ s.choices axis test w) (hnames : names ⊆ declared) :
    s.Sound declared (w.consume n names) := by
  obtain ⟨hnear, hnew⟩ := mem_choices hn
  refine ⟨List.nodup_cons.mpr ⟨hnew, hw.nodup⟩, ?_, ?_⟩
  · intro c hc
    rcases List.mem_cons.mp hc with rfl | hc
    · rw [nearby] at hnear
      split at hnear
      · exact Or.inl (List.mem_singleton.mp hnear)
      · exact Or.inr (lt_size_of_mem_along hf hnear)
    · exact hw.inForest c hc
  · intro c hc
    rcases List.mem_cons.mp hc with rfl | hc
    · exact hnames
    · exact hw.names c hc

theorem Leads.sound (hf : s.forest.WellFormed) (h : s.Leads declared w w')
    (hw : s.Sound declared w) : s.Sound declared w' := by
  induction h with
  | refl => exact hw
  | consume hn hnames _ ih => exact ih (sound_consume hf hw hn hnames)
  | climb _ _ _ ih => exact ih ⟨hw.nodup, hw.inForest, hw.names⟩

/-- **A way has no more nodes than the forest has, and the start.** -/
theorem Sound.length_le (hw : s.Sound declared w) : w.log.length ≤ s.mostRounds := by
  have hsub : w.log.map Consumed.node ⊆ s.start :: List.range s.forest.size := by
    intro n hn
    obtain ⟨c, hc, rfl⟩ := List.mem_map.mp hn
    rcases hw.inForest c hc with h | h
    · exact h ▸ List.mem_cons_self
    · exact List.mem_cons_of_mem _ (List.mem_range.mpr h)
  have := (List.subperm_of_subset hw.nodup hsub).length_le
  simpa [mostRounds] using this

/-! ### A way stays in its tree -/

/-- A way that has not left the tree of `root`. -/
structure InTree (f : Forest) (root : NodeId) (w : Way) : Prop where
  here : ∀ n, w.here = some n → f.Within n root
  log : ∀ c ∈ w.log, f.Within c.node root

/-- A node along an axis is in the tree of the node that it is looked for from. -/
theorem within_of_mem_along {f : Forest} (hf : f.WellFormed) {root n m : NodeId}
    (hroot : f.parent root = none) (hn : f.Within n root) (h : m ∈ f.along axis n) :
    f.Within m root := by
  have hchild : ∀ p, f.Within p root → m ∈ f.children p → f.Within m root :=
    fun p hp hm => .of_parent ((hf.parent_iff m p).mpr hm) hp
  cases axis with
  | child => exact hchild n hn h
  | descendant => exact (hf.mem_preorder_iff.mp (List.mem_of_mem_tail h)).trans hn
  | nextSibling =>
      rw [Forest.along, Option.mem_toList, Forest.nextSibling] at h
      simp only [Option.bind_eq_bind, Option.bind_eq_some_iff] at h
      obtain ⟨p, hp, i, -, hm⟩ := h
      exact hchild p (Forest.parent_within hroot hn hp) (List.mem_of_getElem? hm)
  | anySibling =>
      rw [Forest.along, Forest.siblings] at h
      split at h
      · rename_i p hp
        exact hchild p (Forest.parent_within hroot hn hp) (List.mem_of_mem_filter h)
      · simp at h

theorem inTree_consume (hf : s.forest.WellFormed) {root : NodeId}
    (hroot : s.forest.parent root = none) (hstart : s.forest.Within s.start root)
    {test : NodeTest} {n : NodeId} (hw : InTree s.forest root w)
    (hn : n ∈ s.choices axis test w) (names : List String) :
    InTree s.forest root (w.consume n names) := by
  have hnear := (mem_choices hn).1
  have hin : s.forest.Within n root := by
    rw [nearby] at hnear
    split at hnear
    · rw [List.mem_singleton] at hnear
      exact hnear ▸ hstart
    · rename_i m hm
      exact within_of_mem_along hf hroot (hw.here m hm) hnear
  refine ⟨fun m hm => ?_, fun c hc => ?_⟩
  · exact Option.some.inj hm ▸ hin
  · rcases List.mem_cons.mp hc with rfl | hc
    · exact hin
    · exact hw.log c hc

/-- **A way stays in the tree in which it starts.** -/
theorem Leads.inTree (hf : s.forest.WellFormed) {root : NodeId}
    (hroot : s.forest.parent root = none) (hstart : s.forest.Within s.start root)
    (h : s.Leads declared w w') (hw : InTree s.forest root w) : InTree s.forest root w' := by
  induction h with
  | refl => exact hw
  | consume hn _ _ ih => exact ih (inTree_consume hf hroot hstart hw hn _)
  | climb hn hp _ ih =>
      refine ih ⟨fun m hm => ?_, hw.log⟩
      exact Option.some.inj hm ▸ Forest.parent_within hroot (hw.here _ hn) hp

/-! ### A pattern that cannot be empty consumes -/

/-- Whatever the names, some declared ones cover those of a pattern. -/
theorem exists_leads_of_mem_mean (s : Scene) (names : List String) (axis : Axis) (p : Pattern) :
    ∃ declared, ∀ w w', w' ∈ s.mean names axis p w → s.Leads declared w w' :=
  ⟨names ++ p.recorded, fun w w' => leads_of_mem_mean (List.subset_append_left ..) p w w'
    (List.subset_append_right ..)⟩

theorem exists_leads_of_mem_meanSteps (s : Scene) (names : List String) (axis : Axis)
    (steps : List (Option Axis × Pattern)) :
    ∃ declared, ∀ w w', w' ∈ s.meanSteps names axis steps w → s.Leads declared w w' :=
  ⟨names ++ Pattern.recordedInSteps steps, fun w w' =>
    leads_of_mem_meanSteps (List.subset_append_left ..) steps w w' (List.subset_append_right ..)⟩

mutual

/-- **A pattern that cannot be empty consumes a node.** -/
theorem length_lt_of_mem_mean {names : List String} {axis : Axis} :
    ∀ (p : Pattern) (w w' : Way), p.canBeEmpty = false → w' ∈ s.mean names axis p w →
      w.log.length < w'.log.length
  | .test asked, w, w', _, h => by
      rw [mean, List.mem_map] at h
      obtain ⟨n, -, rfl⟩ := h
      exact Nat.lt_succ_self _
  | .sequence steps, w, w', hp, h => by
      rw [mean] at h
      rw [Pattern.canBeEmpty] at hp
      exact length_lt_of_mem_meanSteps steps w w' hp h
  | .alternation branches, w, w', hp, h => by
      rw [mean] at h
      rw [Pattern.canBeEmpty] at hp
      exact length_lt_of_mem_meanBranches branches w w' hp h
  | .repetition body min max greedy, w, w', hp, h => by
      rw [mean, List.mem_flatMap] at h
      rw [Pattern.canBeEmpty, Bool.or_eq_false_iff, beq_eq_false_iff_ne] at hp
      obtain ⟨v, hv, h⟩ := h
      obtain ⟨declared, hleads⟩ := exists_leads_of_mem_mean s names axis body
      -- the first round consumes, and neither the others nor the extra ones give anything back
      obtain ⟨count, rfl⟩ := Nat.exists_eq_succ_of_ne_zero hp.1
      rw [Way.rounds, List.mem_flatMap] at hv
      obtain ⟨u, hu, hv⟩ := hv
      calc w.log.length < u.log.length := length_lt_of_mem_mean body w u hp.2 hu
        _ ≤ v.log.length := (leads_of_mem_rounds hleads count u hv).length_le
        _ ≤ w'.log.length := (leads_of_mem_upTo hleads _ v h).length_le
  | .capture name body, w, w', hp, h => by
      rw [mean] at h
      rw [Pattern.canBeEmpty] at hp
      exact length_lt_of_mem_mean body w w' hp h
  | .anchor _, _, _, hp, _ => by simp [Pattern.canBeEmpty] at hp
  | .parent, _, _, hp, _ => by simp [Pattern.canBeEmpty] at hp

theorem length_lt_of_mem_meanSteps {names : List String} {axis : Axis} :
    ∀ (steps : List (Option Axis × Pattern)) (w w' : Way), Pattern.allCanBeEmpty steps = false →
      w' ∈ s.meanSteps names axis steps w → w.log.length < w'.log.length
  | [], _, _, hp, _ => by simp [Pattern.allCanBeEmpty] at hp
  | (own, step) :: steps, w, w', hp, h => by
      rw [meanSteps, List.mem_flatMap] at h
      rw [Pattern.allCanBeEmpty, Bool.and_eq_false_iff] at hp
      obtain ⟨v, hv, h⟩ := h
      rcases hp with hp | hp
      · obtain ⟨declared, hleads⟩ := exists_leads_of_mem_meanSteps s names axis steps
        exact Nat.lt_of_lt_of_le (length_lt_of_mem_mean step w v hp hv) (hleads v w' h).length_le
      · obtain ⟨declared, hleads⟩ := exists_leads_of_mem_mean s names (own.getD axis) step
        exact Nat.lt_of_le_of_lt (hleads w v hv).length_le
          (length_lt_of_mem_meanSteps steps v w' hp h)

theorem length_lt_of_mem_meanBranches {names : List String} {axis : Axis} :
    ∀ (branches : List Pattern) (w w' : Way), Pattern.anyCanBeEmpty branches = false →
      w' ∈ s.meanBranches names axis branches w → w.log.length < w'.log.length
  | [], _, _, _, h => by simp [meanBranches] at h
  | branch :: branches, w, w', hp, h => by
      rw [meanBranches, List.mem_append] at h
      rw [Pattern.anyCanBeEmpty, Bool.or_eq_false_iff] at hp
      rcases h with h | h
      · exact length_lt_of_mem_mean branch w w' hp.1 h
      · exact length_lt_of_mem_meanBranches branches w w' hp.2 h

end

/-! ### Rounds without bound -/

/-- Where every round consumes, and no way that is kept to has more than `most` nodes, there is no
round more than there are nodes left. -/
theorem upTo_succ_eq {once : Way → List Way} {kept : Way → Prop} {most : Nat} (greedy : Bool)
    (hkept : ∀ w w', kept w → w' ∈ once w → kept w') (hmost : ∀ w, kept w → w.log.length ≤ most)
    (hlt : ∀ w w', w' ∈ once w → w.log.length < w'.log.length) (count : Nat) :
    ∀ w, kept w → most ≤ count + w.log.length →
      Way.upTo once greedy (count + 1) w = Way.upTo once greedy count w := by
  induction count with
  | zero =>
      intro w hw hle
      have hnone : once w = [] := by
        refine List.eq_nil_iff_forall_not_mem.mpr fun v hv => ?_
        have := hlt w v hv
        have := hmost v (hkept w v hw hv)
        omega
      rw [Way.upTo, Way.upTo, hnone]
      cases greedy <;> rfl
  | succ count ih =>
      intro w hw hle
      have hsame : (once w).flatMap (Way.upTo once greedy (count + 1)) =
          (once w).flatMap (Way.upTo once greedy count) := by
        refine List.flatMap_congr fun v hv => ih v (hkept w v hw hv) ?_
        have := hlt w v hv
        omega
      rw [Way.upTo, hsame]
      rw [Way.upTo]

/-- So the ways that go round as often as may be are those that go round once more, and the one that
stops. -/
theorem upTo_mostRounds {once : Way → List Way} (greedy : Bool)
    (hsound : ∀ w w', s.Sound declared w → w' ∈ once w → s.Sound declared w')
    (hlt : ∀ w w', w' ∈ once w → w.log.length < w'.log.length) (hw : s.Sound declared w) :
    Way.upTo once greedy s.mostRounds w =
      if greedy then (once w).flatMap (Way.upTo once greedy s.mostRounds) ++ [w]
      else w :: (once w).flatMap (Way.upTo once greedy s.mostRounds) := by
  rw [← upTo_succ_eq greedy hsound (fun _ => Sound.length_le) hlt s.mostRounds w hw
    (Nat.le_add_right _ _), Way.upTo]

/-- **A body that cannot be empty is repeated without bound.** -/
theorem mean_unbounded (hf : s.forest.WellFormed) (hnames : names ⊆ declared) {body : Pattern}
    (hbody : body.canBeEmpty = false) (hrec : body.recorded ⊆ declared) (greedy : Bool)
    (hw : s.Sound declared w) :
    s.mean names axis (.repetition body 0 none greedy) w =
      if greedy then
        (s.mean names axis body w).flatMap
          (s.mean names axis (.repetition body 0 none greedy)) ++ [w]
      else
        w :: (s.mean names axis body w).flatMap
          (s.mean names axis (.repetition body 0 none greedy)) := by
  have hloop : s.mean names axis (.repetition body 0 none greedy) =
      Way.upTo (s.mean names axis body) greedy s.mostRounds := by
    funext w
    rw [mean, Way.rounds, List.flatMap_singleton, extraRounds]
  have hsound : ∀ w w', s.Sound declared w → w' ∈ s.mean names axis body w →
      s.Sound declared w' :=
    fun w w' hw h => (leads_of_mem_mean hnames body w w' hrec h).sound hf hw
  rw [hloop]
  exact upTo_mostRounds greedy hsound (fun w w' => length_lt_of_mem_mean body w w' hbody) hw

end Scene

end TreeRules
