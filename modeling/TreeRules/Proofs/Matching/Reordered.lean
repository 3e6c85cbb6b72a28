/-
What comes of preferring otherwise.

A pattern that is reordered continues a way in the same ways, though it may come to them in another
order: a choice point hands out the same nodes whenever it is taken up, and what may be consumed
next depends on the way alone and not on the ways that have been tried before it.  So the machine
gives the same solutions, none more and none fewer.

The two programs may number their slots differently.  A match has its captures in the order of their
names, so the numbers do not show in it.
-/
import TreeRules.Proofs.Matching.Captured
import TreeRules.Proofs.Pattern.Reordered

namespace TreeRules

/-! ### The ways, in another order -/

namespace Way

variable {once once' : Way → List Way}

theorem perm_rounds (h : ∀ w, (once w).Perm (once' w)) (count : Nat) :
    ∀ w, (rounds once count w).Perm (rounds once' count w) := by
  induction count with
  | zero => exact fun w => .refl [w]
  | succ count ih =>
      intro w
      rw [rounds, rounds]
      exact (h w).flatMap fun v _ => ih v

/-- Whether more rounds come first or fewer, the same ways come. -/
theorem perm_upTo (h : ∀ w, (once w).Perm (once' w)) (greedy greedy' : Bool) (count : Nat) :
    ∀ w, (upTo once greedy count w).Perm (upTo once' greedy' count w) := by
  induction count with
  | zero => exact fun w => .refl [w]
  | succ count ih =>
      intro w
      have hmore : ((once w).flatMap (upTo once greedy count)).Perm
          ((once' w).flatMap (upTo once' greedy' count)) := (h w).flatMap fun v _ => ih v
      -- the way that stops stands first or last
      have hstop : ∀ (greedy : Bool) (more : List Way),
          (if greedy then more ++ [w] else w :: more).Perm (w :: more) := by
        intro greedy more
        cases greedy with
        | true => exact List.perm_append_singleton w more
        | false => exact .refl _
      rw [upTo, upTo]
      exact ((hstop greedy _).trans (hmore.cons w)).trans (hstop greedy' _).symm

end Way

namespace Scene

variable {s : Scene} {p p' : Pattern}

theorem meanBranches_eq (s : Scene) (names : List String) (axis : Axis) (branches : List Pattern)
    (w : Way) :
    s.meanBranches names axis branches w = branches.flatMap (s.mean names axis · w) := by
  induction branches with
  | nil => rw [meanBranches, List.flatMap_nil]
  | cons branch branches ih => rw [meanBranches, List.flatMap_cons, ih]

mutual

/-- **A pattern that is reordered continues a way in the same ways.** -/
theorem perm_mean :
    ∀ {p p' : Pattern}, p.Reordered p' → ∀ (names : List String) (axis : Axis) (w : Way),
      (s.mean names axis p w).Perm (s.mean names axis p' w)
  | _, _, .test _, _, _, _ | _, _, .anchor _, _, _, _ | _, _, .parent, _, _, _ => .refl _
  | _, _, .sequence h, names, axis, w => by
      rw [mean, mean]
      exact perm_meanSteps h names axis w
  | _, _, .alternation h hperm, names, axis, w => by
      rw [mean, mean]
      refine (perm_meanBranches h names axis w).trans ?_
      rw [meanBranches_eq, meanBranches_eq]
      exact hperm.flatMap_right _
  | _, _, .repetition h min max greedy greedy', names, axis, w => by
      have honce := perm_mean h names axis
      rw [mean, mean]
      exact (Way.perm_rounds honce min w).flatMap fun v _ => Way.perm_upTo honce greedy greedy' _ v
  | _, _, .capture name h, names, axis, w => by
      rw [mean, mean]
      exact perm_mean h (names ++ [name]) axis w

theorem perm_meanSteps :
    ∀ {steps steps' : List (Option Axis × Pattern)}, Pattern.ReorderedSteps steps steps' →
      ∀ (names : List String) (axis : Axis) (w : Way),
        (s.meanSteps names axis steps w).Perm (s.meanSteps names axis steps' w)
  | _, _, .nil, _, _, _ => .refl _
  | _, _, .cons own h hs, names, axis, w => by
      rw [meanSteps, meanSteps]
      exact (perm_mean h names (own.getD axis) w).flatMap fun v _ => perm_meanSteps hs names axis v

theorem perm_meanBranches :
    ∀ {branches branches' : List Pattern}, Pattern.ReorderedBranches branches branches' →
      ∀ (names : List String) (axis : Axis) (w : Way),
        (s.meanBranches names axis branches w).Perm (s.meanBranches names axis branches' w)
  | _, _, .nil, _, _, _ => .refl _
  | _, _, .cons h hs, names, axis, w => by
      rw [meanBranches, meanBranches]
      exact (perm_mean h names axis w).append (perm_meanBranches hs names axis w)

end

theorem perm_results (s : Scene) (h : p.Reordered p') : (s.results p).Perm (s.results p') :=
  ((perm_mean h [] .child {}).map _).filter _

end Scene

/-! ### The slots, in another order -/

namespace Match

variable {slots slots' : List CaptureSlot}

/-- Captures of different names find their places whichever comes first. -/
theorem insertByName_comm {capture other : String × Captured} (h : capture.1 ≠ other.1)
    (others : List (String × Captured)) :
    insertByName capture (insertByName other others) =
      insertByName other (insertByName capture others) := by
  induction others with
  | nil => rcases lt_or_gt_of_ne h with hlt | hlt <;> simp [insertByName, hlt, hlt.not_gt]
  | cons first others ih =>
      by_cases hc : capture.1 < first.1
      · by_cases ho : other.1 < first.1
        · -- both stand before the first one, and one of them before the other
          rcases lt_or_gt_of_ne h with hlt | hlt <;>
            simp [insertByName, hc, ho, hlt, hlt.not_gt]
        · have hlt : ¬other.1 < capture.1 := fun hlt => ho (hlt.trans hc)
          simp [insertByName, hc, ho, hlt]
      · by_cases ho : other.1 < first.1
        · have hlt : ¬capture.1 < other.1 := fun hlt => hc (hlt.trans ho)
          simp [insertByName, hc, ho, hlt]
        · simp [insertByName, hc, ho, ih]

/-- **The captures of a match do not depend on the order of the slots.** -/
theorem capturesOf_perm (hslots : (Pattern.slotNames slots).Nodup) (h : slots.Perm slots')
    (log : List Consumed) : capturesOf slots log = capturesOf slots' log := by
  have hnodup : ((bindings slots log).map Prod.fst).Nodup :=
    hslots.sublist (map_fst_bindings_sublist slots log)
  have hperm : (bindings slots log).Perm (bindings slots' log) := h.filterMap _
  rw [capturesOf_eq, capturesOf_eq]
  refine hperm.foldr_eq' (fun capture hc other ho captures => ?_) []
  by_cases hname : capture.1 = other.1
  · rw [List.inj_on_of_nodup_map hnodup hc ho hname]
  · exact (insertByName_comm hname captures).symm

theorem ofLog?_perm (hslots : (Pattern.slotNames slots).Nodup) (h : slots.Perm slots') :
    ofLog? slots = ofLog? slots' := by
  funext log
  rw [ofLog?, ofLog?, capturesOf_perm hslots h]

end Match

namespace CompiledPattern

variable {text : String} {settings : Settings} {p : CompiledPattern}

/-- **Preferences do no more than put solutions in another order.**  If any repetitions of a pattern
prefer the other way and the branches of any alternations stand in another order, its program
captures under the same names and in the same kinds, and the machine gives the same matches, each as
often as before. -/
theorem perm_solutions_of_reordered (h : read text settings = .ok p) {other : Pattern}
    (hother : p.pattern.Reordered other) (scene : Scene) (hf : scene.forest.WellFormed) :
    p.program.captures.Perm other.compile.captures ∧
    ∃ solutions solutions',
      (p.search scene).Solutions (.resuming Search.initial) solutions ∧
      (Search.mk scene other.compile).Solutions (.resuming Search.initial) solutions' ∧
      (solutions.map (Match.ofVisits? p.program)).Perm
        (solutions'.map (Match.ofVisits? other.compile)) := by
  obtain ⟨hproper, hprogram⟩ := of_read h
  obtain ⟨solutions, hsolutions, hread⟩ :=
    Search.exists_solutions_of_compile (s := p.search scene) hf hproper hprogram
  obtain ⟨solutions', hsolutions', hread'⟩ :=
    Search.exists_solutions_of_compile (s := Search.mk scene other.compile) hf
      (hother.proper hproper) rfl
  refine ⟨hprogram ▸ hother.perm_captureSlots, solutions, solutions', hsolutions, hsolutions', ?_⟩
  rw [Match.ofLog?_perm (Pattern.nodup_captureSlots p.pattern) hother.perm_captureSlots] at hread
  have hresults : ((scene.results p.pattern).map (Match.ofLog? other.captureSlots)).Perm
      ((scene.results other).map (Match.ofLog? other.captureSlots)) :=
    (scene.perm_results hother).map _
  exact ((List.Perm.of_eq hread).trans hresults).trans (List.Perm.of_eq hread'.symm)

/-- A node whatever its text, recorded under a name if the text is a certain one, and perhaps a node
beneath it. -/
def perhapsNamed : CompiledPattern :=
  let pattern : Pattern := .sequence
    [(none, .alternation [.capture "x" (.test (.literal "a")), .test .any]),
      (some .child, .repetition (.test .any) 0 (some 1) true)]
  { source := "(x:a|.)/.?", pattern, program := pattern.compile, template := none, predicates := [] }

theorem read_perhapsNamed : read "(x:a|.)/.?" {} = .ok perhapsNamed := by
  cbv

/-- The pattern that would rather not record the node, nor have one beneath it. -/
def ratherNot : Pattern := .sequence
  [(none, .alternation [.test .any, .capture "x" (.test (.literal "a"))]),
    (some .child, .repetition (.test .any) 0 (some 1) false)]

theorem reordered_ratherNot : perhapsNamed.pattern.Reordered ratherNot :=
  .sequence (.cons none (.alternation (.refl _) (.swap _ _ []))
    (.cons (some .child) (.repetition (.test .any) 0 (some 1) true false) .nil))

/-- A node and the one beneath it are found in four ways, whichever are preferred. -/
theorem perm_solutions_of_ratherNot :
    ∃ solutions, (Search.mk ⟨leafBelow.forest, {}, 0, 0⟩ ratherNot.compile).Solutions
      (.resuming Search.initial) solutions ∧
      (solutions.map (Match.ofVisits? ratherNot.compile)).Perm
        [some ⟨0, 1, [0, 1], [("x", .single 0)]⟩, some ⟨0, 0, [0], [("x", .single 0)]⟩,
          some ⟨0, 1, [0, 1], []⟩, some ⟨0, 0, [0], []⟩] := by
  obtain ⟨-, solutions, solutions', hsolutions, hsolutions', hperm⟩ := perm_solutions_of_reordered
    read_perhapsNamed reordered_ratherNot ⟨leafBelow.forest, {}, 0, 0⟩ wellFormed_leafBelow
  rw [hsolutions.unique (solutions_search read_perhapsNamed _ wellFormed_leafBelow)] at hperm
  refine ⟨solutions', hsolutions', hperm.symm.trans (List.Perm.of_eq ?_)⟩
  decide +kernel

end CompiledPattern

end TreeRules
