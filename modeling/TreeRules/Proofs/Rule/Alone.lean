/-
A rule that is run by itself.

A list of one rule is run in cycles, and a repeated rule in passes.  A cycle of one rule that is
applied once is a pass of it, so the two loops differ in the sign by which they stop: a cycle that
replaces nothing, and a pass that finds nothing.  A pass that finds anything replaces its first
match, so the signs are one and the same, at every moment of the run.  Hence whoever repeats a rule
may as well run the list of that rule: it does the same to the same nodes, reports the same changes
in the same order, and gives the same answer.
-/
import TreeRules.Proofs.Rule.Cycle

namespace TreeRules

namespace Rule

/-- The rule in another mode. -/
def inMode (rule : Rule) (mode : Mode) : Rule := { rule with mode }

theorem Templated.inMode {rule : Rule} (h : rule.Templated) (mode : Mode) :
    (rule.inMode mode).Templated := ⟨h.read, h.template⟩

end Rule

namespace Runner

variable {r : Runner} {rule : Rule} {d d' : Document} {o : Outcome} {t : Tally} {e : ApplyError}
  {left : Nat}

/-! ### One cycle is one pass -/

theorem pass_inMode (r : Runner) (rule : Rule) (mode : Mode) (d : Document) :
    r.pass (rule.inMode mode) d = r.pass rule d := rfl

theorem hasMatch_inMode (r : Runner) (rule : Rule) (mode : Mode) (d : Document) :
    r.hasMatch (rule.inMode mode) d = r.hasMatch rule d := rfl

theorem cycle_of_pass (hcheck : r.predicates.check rule.pattern = .ok ())
    (h : r.pass rule d = (d', .ok t)) : r.cycle d {} [rule.inMode .once] = (d', .ok t) := by
  have hrun : r.run (rule.inMode .once) d = (d', .ok (Outcome.add {} t)) :=
    run_of_replaceAll hcheck h
  rw [cycle, hrun]
  simp only [cycle, Outcome.add, Nat.zero_add]

theorem cycle_of_pass_error (hcheck : r.predicates.check rule.pattern = .ok ())
    (h : r.pass rule d = (d', .error e)) :
    r.cycle d {} [rule.inMode .once] = (d', .error (.apply e)) := by
  have hrun : r.run (rule.inMode .once) d = (d', .error (.apply e)) :=
    run_of_pass_error hcheck rfl h
  rw [cycle, hrun]

/-- **A pass replaces nothing exactly if it finds nothing.** -/
theorem applications_eq_zero_iff_of_pass (hd : d.Whole) (hrule : rule.Templated)
    (h : r.pass rule d = (d', .ok t)) :
    t.applications = 0 ↔ (t.applications = 0 && t.skipped = 0) = true := by
  constructor
  · intro hnone
    exact (found_eq_nil_iff_of_pass h).mpr ((stage_pass hd hrule h).idle hnone).2
  · intro hnone
    rw [Bool.and_eq_true, decide_eq_true_iff] at hnone
    exact hnone.1

/-! ### All cycles are all passes -/

theorem repeatCycles_singleton (hd : d.Whole) (hrule : rule.Templated)
    (hcheck : r.predicates.check rule.pattern = .ok ()) :
    r.repeatCycles [rule.inMode .once] d o left =
      r.repeatPasses (rule.inMode .repeatedly) d o left := by
  induction left generalizing d o with
  | zero =>
      rw [repeatCycles, repeatPasses, List.any_cons, List.any_nil, Bool.or_false,
        hasMatch_inMode, hasMatch_inMode]
  | succ left ih =>
      rw [repeatCycles, repeatPasses, pass_inMode]
      rcases hpass : r.pass rule d with ⟨d', e | t⟩
      · rw [cycle_of_pass_error hcheck hpass]
      · rw [cycle_of_pass hcheck hpass]
        dsimp only
        have hsame := applications_eq_zero_iff_of_pass hd hrule hpass
        by_cases hnone : t.applications = 0
        · rw [if_pos hnone, if_pos (hsame.mp hnone)]
        · rw [if_neg hnone, if_neg (mt hsame.mpr hnone)]
          exact ih (stage_pass hd hrule hpass).whole

/-- **A rule by itself, run in cycles, is the rule repeated**: the same document, down to the names
of new nodes and the reports of changes, and the same outcome or error. -/
theorem runAll_singleton (r : Runner) (hd : d.Whole) (hrule : rule.Templated) :
    r.runAll [rule.inMode .once] d = r.run (rule.inMode .repeatedly) d := by
  cases hcheck : r.predicates.check rule.pattern with
  | error e =>
      have hall : r.checkAll [rule.inMode .once] = .error e := by
        show (r.predicates.check rule.pattern >>= fun _ => r.checkAll []) = _
        rw [hcheck]
        rfl
      have hrefused : r.run (rule.inMode .repeatedly) d = (d, .error (.compile e)) :=
        run_of_check_error hcheck
      rw [hrefused, runAll, hall]
  | ok _ =>
      have hall : r.checkAll [rule.inMode .once] = .ok () := by
        show (r.predicates.check rule.pattern >>= fun _ => r.checkAll []) = _
        rw [hcheck]
        rfl
      have hrepeat : r.run (rule.inMode .repeatedly) d =
          r.repeatPasses (rule.inMode .repeatedly) d {} r.settings.maxPasses :=
        run_eq_repeatPasses hcheck
      rw [hrepeat, runAll, hall]
      exact repeatCycles_singleton hd hrule hcheck

open CompiledPattern in
/-- At the limit of one pass both give up on a rule whose replacement is matched again. -/
theorem runAll_singleton_threeAlike :
    onePass.runAll [(relabelAlike "a" .once).inMode .once] threeAlike =
        (relabelled "a", .error (.didNotConverge 1 3)) ∧
      onePass.run ((relabelAlike "a" .once).inMode .repeatedly) threeAlike =
        (relabelled "a", .error (.didNotConverge 1 3)) :=
  ⟨runAll_relabelAlike_a, (runAll_singleton onePass whole_threeAlike
    (templated_relabelAlike "a" .once)).symm.trans runAll_relabelAlike_a⟩

end Runner

end TreeRules
