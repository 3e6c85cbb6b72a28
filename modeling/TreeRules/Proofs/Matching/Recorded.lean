/-
What a way records under a name.

A pattern consumes each node under the names of the captures around one of its tests.  So nothing is
recorded under a name that the pattern does not declare, and a node is recorded under a name once for
each capture of that name around the test that consumes it.

A capture that binds one node is declared once, around what consumes exactly one node, and within no
repetition.  So no way records a second node under it, whatever branches it takes.
-/
import TreeRules.Proofs.Matching.Solutions
import TreeRules.Proofs.Pattern.Kinds

namespace TreeRules

/-! ### What is consumed on a way -/

/-- The way has gone on by consuming nodes, each of them under one of these lists of names. -/
def Way.Adds (allowed : List (List String)) (w w' : Way) : Prop :=
  ∃ new, w'.log = new ++ w.log ∧ ∀ c ∈ new, c.names ∈ allowed

namespace Way.Adds

variable {allowed allowed' : List (List String)} {w w' w'' : Way}

theorem refl (w : Way) : Adds allowed w w := ⟨[], rfl, by simp⟩

theorem trans (h : Adds allowed w w') (h' : Adds allowed w' w'') : Adds allowed w w'' := by
  obtain ⟨new, hlog, hnew⟩ := h
  obtain ⟨new', hlog', hnew'⟩ := h'
  refine ⟨new' ++ new, by rw [hlog', hlog, List.append_assoc], fun c hc => ?_⟩
  exact (List.mem_append.mp hc).elim (hnew' c) (hnew c)

theorem mono (h : Adds allowed w w') (hsub : allowed ⊆ allowed') : Adds allowed' w w' := by
  obtain ⟨new, hlog, hnew⟩ := h
  exact ⟨new, hlog, fun c hc => hsub (hnew c hc)⟩

end Way.Adds

namespace Scene

variable {s : Scene}

mutual

/-- **A pattern consumes nodes under the names around its tests.** -/
theorem adds_of_mem_mean :
    ∀ (p : Pattern) (names : List String) (axis : Axis) (w w' : Way),
      w' ∈ s.mean names axis p w → w.Adds (p.namesOfTests names) w'
  | .test asked, names, axis, w, w', h => by
      rw [mean, List.mem_map] at h
      obtain ⟨n, -, rfl⟩ := h
      rw [Pattern.namesOfTests]
      exact ⟨[⟨n, names⟩], rfl, by simp⟩
  | .sequence steps, names, axis, w, w', h => by
      rw [mean] at h
      rw [Pattern.namesOfTests]
      exact adds_of_mem_meanSteps steps names axis w w' h
  | .alternation branches, names, axis, w, w', h => by
      rw [mean] at h
      rw [Pattern.namesOfTests]
      exact adds_of_mem_meanBranches branches names axis w w' h
  | .repetition body min max greedy, names, axis, w, w', h => by
      rw [Pattern.namesOfTests]
      split
      · rename_i hnever
        rw [Bool.and_eq_true, decide_eq_true_eq, decide_eq_true_eq] at hnever
        obtain ⟨rfl, rfl⟩ := hnever
        rw [mean_never, List.mem_singleton] at h
        subst h
        exact .refl _
      · rw [mean, List.mem_flatMap] at h
        obtain ⟨v, hv, h⟩ := h
        have honce : ∀ w w', w' ∈ s.mean names axis body w → w.Adds (body.namesOfTests names) w' :=
          adds_of_mem_mean body names axis
        exact (Way.rel_of_mem_rounds .refl (fun _ _ _ => .trans) honce min w v hv).trans
          (Way.rel_of_mem_upTo .refl (fun _ _ _ => .trans) honce _ v w' h)
  | .capture name body, names, axis, w, w', h => by
      rw [mean] at h
      rw [Pattern.namesOfTests]
      exact adds_of_mem_mean body (names ++ [name]) axis w w' h
  | .anchor place, names, axis, w, w', h => by
      rw [mean] at h
      split at h
      · rw [List.mem_singleton] at h
        subst h
        exact .refl _
      · simp at h
  | .parent, names, axis, w, w', h => by
      rw [mean, List.mem_map] at h
      obtain ⟨p, -, rfl⟩ := h
      exact ⟨[], rfl, by simp⟩

theorem adds_of_mem_meanSteps :
    ∀ (steps : List (Option Axis × Pattern)) (names : List String) (axis : Axis) (w w' : Way),
      w' ∈ s.meanSteps names axis steps w → w.Adds (Pattern.namesOfTestsInSteps names steps) w'
  | [], names, axis, w, w', h => by
      rw [meanSteps, List.mem_singleton] at h
      subst h
      exact .refl _
  | (own, step) :: steps, names, axis, w, w', h => by
      rw [meanSteps, List.mem_flatMap] at h
      obtain ⟨v, hv, h⟩ := h
      rw [Pattern.namesOfTestsInSteps]
      exact ((adds_of_mem_mean step names _ w v hv).mono (List.subset_append_left _ _)).trans
        ((adds_of_mem_meanSteps steps names axis v w' h).mono (List.subset_append_right _ _))

theorem adds_of_mem_meanBranches :
    ∀ (branches : List Pattern) (names : List String) (axis : Axis) (w w' : Way),
      w' ∈ s.meanBranches names axis branches w →
        w.Adds (Pattern.namesOfTestsInBranches names branches) w'
  | [], names, axis, w, w', h => by
      rw [meanBranches] at h
      exact absurd h List.not_mem_nil
  | branch :: branches, names, axis, w, w', h => by
      rw [meanBranches, List.mem_append] at h
      rw [Pattern.namesOfTestsInBranches]
      rcases h with h | h
      · exact (adds_of_mem_mean branch names axis w w' h).mono (List.subset_append_left _ _)
      · exact (adds_of_mem_meanBranches branches names axis w w' h).mono
          (List.subset_append_right _ _)

end

mutual

/-- A pattern of which it can be told consumes one node. -/
theorem exists_cons_of_mem_mean :
    ∀ (p : Pattern) (names : List String) (axis : Axis) (w w' : Way),
      p.consumesExactlyOne = true → w' ∈ s.mean names axis p w → ∃ c, w'.log = c :: w.log
  | .test asked, names, axis, w, w', _, h => by
      rw [mean, List.mem_map] at h
      obtain ⟨n, -, rfl⟩ := h
      exact ⟨⟨n, names⟩, rfl⟩
  | .alternation branches, names, axis, w, w', hone, h => by
      rw [mean] at h
      rw [Pattern.consumesExactlyOne] at hone
      exact exists_cons_of_mem_meanBranches branches names axis w w' hone h
  | .capture name body, names, axis, w, w', hone, h => by
      rw [mean] at h
      rw [Pattern.consumesExactlyOne] at hone
      exact exists_cons_of_mem_mean body (names ++ [name]) axis w w' hone h
  | .sequence _, _, _, _, _, hone, _ | .repetition .., _, _, _, _, hone, _
  | .anchor _, _, _, _, _, hone, _ | .parent, _, _, _, _, hone, _ => by
      simp [Pattern.consumesExactlyOne] at hone

theorem exists_cons_of_mem_meanBranches :
    ∀ (branches : List Pattern) (names : List String) (axis : Axis) (w w' : Way),
      Pattern.allConsumeExactlyOne branches = true → w' ∈ s.meanBranches names axis branches w →
        ∃ c, w'.log = c :: w.log
  | [], names, axis, w, w', _, h => by
      rw [meanBranches] at h
      exact absurd h List.not_mem_nil
  | branch :: branches, names, axis, w, w', hone, h => by
      rw [meanBranches, List.mem_append] at h
      rw [Pattern.allConsumeExactlyOne, Bool.and_eq_true] at hone
      exact h.elim (exists_cons_of_mem_mean branch names axis w w' hone.1)
        (exists_cons_of_mem_meanBranches branches names axis w w' hone.2)

end

theorem names_of_mem_results {p : Pattern} {log : List Consumed} (h : log ∈ s.results p) :
    ∀ c ∈ log, c.names ∈ p.namesOfTests [] := by
  rw [results, List.mem_filter, List.mem_map] at h
  obtain ⟨⟨w, hw, rfl⟩, -⟩ := h
  obtain ⟨new, hlog, hnew⟩ := adds_of_mem_mean p [] .child {} w hw
  intro c hc
  rw [hlog, List.append_nil] at hc
  exact hnew c (List.mem_reverse.mp hc)

end Scene

/-! ### What is consumed under a name -/

namespace Match

variable {log log' : List Consumed} {name : String}

/-- A node is listed once for each capture of the name around the test that consumes it. -/
theorem consumedUnder_eq (name : String) (log : List Consumed) :
    consumedUnder name log = log.flatMap fun c => List.replicate (c.names.count name) c.node := by
  refine List.flatMap_congr fun c _ => ?_
  rw [List.filter_beq, List.map_replicate]

theorem consumedUnder_append (name : String) (log log' : List Consumed) :
    consumedUnder name (log ++ log') = consumedUnder name log ++ consumedUnder name log' :=
  List.flatMap_append

theorem length_consumedUnder_cons (name : String) (c : Consumed) (log : List Consumed) :
    (consumedUnder name (c :: log)).length =
      c.names.count name + (consumedUnder name log).length := by
  simp [consumedUnder_eq]

theorem length_consumedUnder_reverse (name : String) (log : List Consumed) :
    (consumedUnder name log.reverse).length = (consumedUnder name log).length :=
  ((List.reverse_perm log).flatMap_right _).length_eq

theorem consumedUnder_eq_nil (h : ∀ c ∈ log, name ∉ c.names) : consumedUnder name log = [] := by
  rw [consumedUnder_eq, List.flatMap_eq_nil_iff]
  intro c hc
  rw [List.count_eq_zero.mpr (h c hc), List.replicate_zero]

theorem consumedUnder_of_adds {allowed : List (List String)} {w w' : Way}
    (h : w.Adds allowed w') (hname : ∀ names ∈ allowed, name ∉ names) :
    consumedUnder name w'.log = consumedUnder name w.log := by
  obtain ⟨new, hlog, hnew⟩ := h
  rw [hlog, consumedUnder_append, consumedUnder_eq_nil fun c hc => hname _ (hnew c hc),
    List.nil_append]

/-- **Nodes are listed once each if none is consumed within two captures of the name**, and only
then. -/
theorem consumedUnder_eq_filter_iff (hnodup : (log.map (·.node)).Nodup) :
    consumedUnder name log = (log.filter (·.names.contains name)).map (·.node) ↔
      ∀ c ∈ log, c.names.count name ≤ 1 := by
  constructor
  · intro heq c hc
    have hunique : (consumedUnder name log).Nodup := by
      rw [heq]
      exact hnodup.sublist (List.filter_sublist.map _)
    rw [consumedUnder_eq, List.nodup_flatMap] at hunique
    exact List.nodup_replicate.mp (hunique.1 c hc)
  · intro hle
    clear hnodup
    induction log with
    | nil => rfl
    | cons c log ih =>
        have hrest := ih fun c' hc' => hle c' (List.mem_cons_of_mem c hc')
        have hfirst := hle c List.mem_cons_self
        rw [consumedUnder_eq] at hrest ⊢
        rw [List.flatMap_cons, hrest]
        by_cases hmem : name ∈ c.names
        · have hcount : c.names.count name = 1 :=
            Nat.le_antisymm hfirst (List.count_pos_iff.mpr hmem)
          simp [hcount, hmem]
        · simp [List.count_eq_zero.mpr hmem, hmem]

end Match

/-! ### A capture that binds one node -/

namespace Pattern

variable {p : Pattern} {repeated : Bool} {name : String}

theorem not_mem_recorded_of_filter_eq_nil
    (h : (p.declarations repeated).filter (·.name = name) = []) : name ∉ p.recorded := by
  rw [← map_name_declarations repeated, List.mem_map]
  rintro ⟨slot, hslot, hname⟩
  rw [List.filter_eq_nil_iff] at h
  exact h slot hslot (decide_eq_true hname)

theorem filter_declarations_true (h : ((p.declarations true).filter (·.name = name)).Sublist
    [⟨name, .single⟩]) : (p.declarations true).filter (·.name = name) = [] := by
  refine (List.sublist_singleton.mp h).resolve_right fun heq => ?_
  have hmem : ⟨name, .single⟩ ∈ (p.declarations true).filter (·.name = name) := by
    rw [heq]
    exact List.mem_singleton.mpr rfl
  exact CaptureKind.noConfusion
    (multiple_of_mem_declarations p _ (List.mem_of_mem_filter hmem))

end Pattern

namespace Scene

open Match

variable {s : Scene} {name : String}

/-- What is not declared is not recorded. -/
theorem consumedUnder_of_mem_mean {p : Pattern} {names : List String} {axis : Axis} {w w' : Way}
    (hnames : name ∉ names) (hrec : name ∉ p.recorded) (h : w' ∈ s.mean names axis p w) :
    consumedUnder name w'.log = consumedUnder name w.log :=
  consumedUnder_of_adds (adds_of_mem_mean p names axis w w' h) fun _ haround =>
    Pattern.not_mem_of_mem_namesOfTests hnames hrec haround

/-- Around one node, a capture is recorded once. -/
theorem length_consumedUnder_of_exactlyOne {body : Pattern} {names : List String} {axis : Axis}
    {w w' : Way} (hnames : name ∉ names) (hone : body.consumesExactlyOne = true)
    (hrec : name ∉ body.recorded) (h : w' ∈ s.mean (names ++ [name]) axis body w) :
    (consumedUnder name w'.log).length = (consumedUnder name w.log).length + 1 := by
  obtain ⟨c, hlog⟩ := exists_cons_of_mem_mean body _ axis w w' hone h
  obtain ⟨new, hlog', hnew⟩ := adds_of_mem_mean body _ axis w w' h
  obtain rfl : new = [c] := List.append_cancel_right (hlog'.symm.trans hlog)
  obtain ⟨inner, hinner, hsub⟩ :=
    Pattern.exists_of_mem_namesOfTests body _ _ (hnew c (List.mem_singleton.mpr rfl))
  have hcount : c.names.count name = 1 := by
    have hnone : inner.count name = 0 := List.count_eq_zero.mpr fun hmem => hrec (hsub hmem)
    rw [hinner, List.count_append, List.count_append, List.count_eq_zero.mpr hnames, hnone]
    simp
  rw [hlog, length_consumedUnder_cons, hcount, Nat.add_comm]

mutual

/-- **Where a name is declared at most once, and so that it binds one node, no way records more than
one under it.** -/
theorem length_consumedUnder_le :
    ∀ (p : Pattern) (repeated : Bool) (names : List String) (axis : Axis) (w w' : Way),
      name ∉ names →
      ((p.declarations repeated).filter (·.name = name)).Sublist [⟨name, .single⟩] →
      w' ∈ s.mean names axis p w →
      (consumedUnder name w'.log).length ≤
        (consumedUnder name w.log).length +
          ((p.declarations repeated).filter (·.name = name)).length
  | .test _, _, _, _, w, w', hnames, _, h | .anchor _, _, _, _, w, w', hnames, _, h
  | .parent, _, _, _, w, w', hnames, _, h => by
      rw [consumedUnder_of_mem_mean hnames (by simp [Pattern.recorded]) h]
      exact Nat.le_add_right _ _
  | .sequence steps, repeated, names, axis, w, w', hnames, hdeclared, h => by
      rw [mean] at h
      rw [Pattern.declarations] at hdeclared ⊢
      exact length_consumedUnder_le_steps steps repeated names axis w w' hnames hdeclared h
  | .alternation branches, repeated, names, axis, w, w', hnames, hdeclared, h => by
      rw [mean] at h
      rw [Pattern.declarations] at hdeclared ⊢
      exact length_consumedUnder_le_branches branches repeated names axis w w' hnames hdeclared h
  | .repetition body min max greedy, repeated, names, axis, w, w', hnames, hdeclared, h => by
      have hrec : name ∉ (Pattern.repetition body min max greedy).recorded := by
        rw [Pattern.declarations] at hdeclared
        rw [Pattern.recorded]
        split
        · exact List.not_mem_nil
        · rename_i hnever
          rw [if_neg hnever] at hdeclared
          exact Pattern.not_mem_recorded_of_filter_eq_nil
            (Pattern.filter_declarations_true hdeclared)
      rw [consumedUnder_of_mem_mean hnames hrec h]
      exact Nat.le_add_right _ _
  | .capture other body, repeated, names, axis, w, w', hnames, hdeclared, h => by
      rw [mean] at h
      rw [Pattern.declarations, List.filter_cons] at hdeclared ⊢
      by_cases hname : other = name
      · subst hname
        rw [if_pos (decide_eq_true rfl)] at hdeclared ⊢
        have honly := (List.sublist_singleton.mp hdeclared).resolve_left (List.cons_ne_nil _ _)
        rw [List.cons.injEq, CaptureSlot.mk.injEq] at honly
        have hone : body.consumesExactlyOne = true := by
          by_contra hnot
          simp [hnot] at honly
        rw [length_consumedUnder_of_exactlyOne hnames hone
          (Pattern.not_mem_recorded_of_filter_eq_nil honly.2) h, honly.2]
        exact Nat.le_refl _
      · have hdec : ¬ decide (other = name) = true := by simpa using hname
        rw [if_neg hdec] at hdeclared ⊢
        refine length_consumedUnder_le body repeated (names ++ [other]) axis w w' ?_ hdeclared h
        rw [List.mem_append, List.mem_singleton]
        exact fun hmem => hmem.elim hnames fun heq => hname heq.symm

theorem length_consumedUnder_le_steps :
    ∀ (steps : List (Option Axis × Pattern)) (repeated : Bool) (names : List String) (axis : Axis)
      (w w' : Way), name ∉ names →
      ((Pattern.declarationsInSteps repeated steps).filter (·.name = name)).Sublist
        [⟨name, .single⟩] →
      w' ∈ s.meanSteps names axis steps w →
      (consumedUnder name w'.log).length ≤
        (consumedUnder name w.log).length +
          ((Pattern.declarationsInSteps repeated steps).filter (·.name = name)).length
  | [], repeated, names, axis, w, w', _, _, h => by
      rw [meanSteps, List.mem_singleton] at h
      subst h
      exact Nat.le_add_right _ _
  | (own, step) :: steps, repeated, names, axis, w, w', hnames, hdeclared, h => by
      rw [meanSteps, List.mem_flatMap] at h
      obtain ⟨v, hv, h⟩ := h
      rw [Pattern.declarationsInSteps, List.filter_append] at hdeclared ⊢
      have hfirst := length_consumedUnder_le step repeated names _ w v hnames
        ((List.sublist_append_left _ _).trans hdeclared) hv
      have hrest := length_consumedUnder_le_steps steps repeated names axis v w' hnames
        ((List.sublist_append_right _ _).trans hdeclared) h
      rw [List.length_append]
      omega

theorem length_consumedUnder_le_branches :
    ∀ (branches : List Pattern) (repeated : Bool) (names : List String) (axis : Axis)
      (w w' : Way), name ∉ names →
      ((Pattern.declarationsInBranches repeated branches).filter (·.name = name)).Sublist
        [⟨name, .single⟩] →
      w' ∈ s.meanBranches names axis branches w →
      (consumedUnder name w'.log).length ≤
        (consumedUnder name w.log).length +
          ((Pattern.declarationsInBranches repeated branches).filter (·.name = name)).length
  | [], repeated, names, axis, w, w', _, _, h => by
      rw [meanBranches] at h
      exact absurd h List.not_mem_nil
  | branch :: branches, repeated, names, axis, w, w', hnames, hdeclared, h => by
      rw [meanBranches, List.mem_append] at h
      rw [Pattern.declarationsInBranches, List.filter_append] at hdeclared ⊢
      rw [List.length_append]
      rcases h with h | h
      · have := length_consumedUnder_le branch repeated names axis w w' hnames
          ((List.sublist_append_left _ _).trans hdeclared) h
        omega
      · have := length_consumedUnder_le_branches branches repeated names axis w w' hnames
          ((List.sublist_append_right _ _).trans hdeclared) h
        omega

end

/-- So a result has at most one node for a capture that binds one node. -/
theorem length_consumedUnder_of_single {p : Pattern} (hslot : ⟨name, .single⟩ ∈ p.captureSlots)
    {log : List Consumed} (hlog : log ∈ s.results p) : (consumedUnder name log).length ≤ 1 := by
  rw [results, List.mem_filter, List.mem_map] at hlog
  obtain ⟨⟨w, hw, rfl⟩, -⟩ := hlog
  have hfilter := Pattern.filter_declarations_of_single hslot
  have hle := length_consumedUnder_le p false [] .child {} w List.not_mem_nil
    (by rw [hfilter]) hw
  rw [hfilter] at hle
  rw [length_consumedUnder_reverse]
  exact hle

end Scene

end TreeRules
