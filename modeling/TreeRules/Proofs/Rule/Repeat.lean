/-
Repeating a rule until nothing is left.

A repeated rule takes passes, and a pass that finds nothing is the last.  At the limit of passes
there is no further one; the document is only asked whether it has a match.  Both ways of ending
well say the same of the document, that no match is left there, and both count as one pass more.

What a replacement does to the document makes no difference to this.  Where it keeps the forest well
formed, as all do that are made of operations on nodes, the search that finds no match comes to an
end by itself.
-/
import TreeRules.Proofs.Rule.Reachable
import TreeRules.Rule.Run

namespace TreeRules

/-! ### So many steps -/

/-- So many steps one after another. -/
inductive Times {α : Type} (step : α → α → Prop) : Nat → α → α → Prop
  | zero (a : α) : Times step 0 a a
  | succ {n : Nat} {a b c : α} (hstep : step a b) (hrest : Times step n b c) :
      Times step (n + 1) a c

theorem Times.keeps {α : Type} {step : α → α → Prop} {P : α → Prop} {n : Nat} {a b : α}
    (hP : ∀ a b, step a b → P a → P b) (h : Times step n a b) (ha : P a) : P b := by
  induction h with
  | zero => exact ha
  | succ hstep _ ih => exact ih (hP _ _ hstep ha)

/-- Whatever match the replacement is asked about, all that it does is done by operations. -/
def Replacement.Operates (r : Replacement) : Prop :=
  ∀ (f : Forest) (m : Match), f.WellFormed → m.InForest f → r.ByOperations f m

/-- A document whose root is a node of a well-formed forest. -/
structure Document.Rooted (d : Document) : Prop where
  wellFormed : d.forest.WellFormed
  lt_size : d.root < d.forest.size

@[simp] theorem Outcome.passes_add (o : Outcome) (t : Tally) :
    (o.add t).passes = o.passes + 1 := rfl

@[simp] theorem Outcome.applications_add (o : Outcome) (t : Tally) :
    (o.add t).applications = o.applications + t.applications := rfl

namespace Runner

variable {r : Runner} {rule : Rule} {replacement : Replacement} {d d' : Document} {o o' : Outcome}
  {t t' : Tally} {matched : List Match} {left n applications : Nat}

/-! ### One pass -/

/-- The matches that a pass finds. -/
def found (r : Runner) (rule : Rule) (d : Document) : List Match :=
  rule.pattern.findAll d.forest r.predicates r.settings d.root

/-- A pass that finds a match and does not fail. -/
def FindingPass (r : Runner) (rule : Rule) (d d' : Document) : Prop :=
  r.found rule d ≠ [] ∧ ∃ t, r.pass rule d = (d', .ok t)

theorem pass_eq_replaceAll (r : Runner) (rule : Rule) (d : Document) :
    r.pass rule d = replaceAll rule.replacement d {} (r.found rule d) := rfl

theorem findFirst_eq_none_iff (r : Runner) (rule : Rule) (d : Document) :
    rule.pattern.findFirst d.forest r.predicates r.settings d.root = none ↔
      r.found rule d = [] := by
  rw [CompiledPattern.findFirst, LazyList.head?_eq, List.head?_eq_none_iff]
  rfl

theorem hasMatch_eq_false_iff : r.hasMatch rule d = false ↔ r.found rule d = [] := by
  rw [hasMatch, Option.isSome_eq_false_iff, Option.isNone_iff_eq_none,
    findFirst_eq_none_iff r rule d]

/-- Where nothing is found, the search has come to its end. -/
theorem reports_nil_of_found_eq_nil {text : String} {settings : Settings}
    (hread : CompiledPattern.read text settings = .ok rule.pattern) (hf : d.forest.WellFormed)
    (h : r.found rule d = []) :
    (rule.pattern.query d.forest r.predicates r.settings d.root).Reports
      (rule.pattern.query d.forest r.predicates r.settings d.root).begin [] := by
  have hreports := CompiledPattern.reports_query hread hf r.predicates r.settings d.root
  rwa [← CompiledPattern.findAll_eq_take hread hf, ← found, h] at hreports

/-- Each match is either replaced or skipped. -/
theorem length_of_replaceAll (h : replaceAll replacement d t matched = (d', .ok t')) :
    t'.applications + t'.skipped = t.applications + t.skipped + matched.length := by
  induction matched generalizing d t with
  | nil =>
      cases h
      rfl
  | cons m rest ih =>
      rw [replaceAll] at h
      rw [List.length_cons]
      split at h
      · split at h
        · cases h
        · have hrest := ih h
          dsimp only at hrest
          omega
      · have hrest := ih h
        dsimp only at hrest
        omega

/-- A pass has found nothing exactly if there was nothing to be found. -/
theorem found_eq_nil_iff_of_pass (h : r.pass rule d = (d', .ok t)) :
    (t.applications = 0 && t.skipped = 0) = true ↔ r.found rule d = [] := by
  have hlength : t.applications + t.skipped = 0 + 0 + (r.found rule d).length :=
    length_of_replaceAll (pass_eq_replaceAll r rule d ▸ h)
  rw [← List.length_eq_zero_iff, Bool.and_eq_true, decide_eq_true_iff, decide_eq_true_iff]
  omega

theorem pass_of_found_eq_nil (h : r.found rule d = []) : r.pass rule d = (d, .ok {}) := by
  rw [pass_eq_replaceAll, h]
  rfl

theorem rooted_replaceAll (hd : d.Rooted) (hr : replacement.Operates)
    (hmatched : ∀ m ∈ matched, m.InForest d.forest) (t : Tally) :
    (replaceAll replacement d t matched).1.Rooted := by
  induction matched generalizing d t with
  | nil => exact hd
  | cons m rest ih =>
      rw [List.forall_mem_cons] at hmatched
      have hby := hr d.forest m hd.wellFormed hmatched.1
      have hwf := Replacement.wellFormed_apply hd.wellFormed hmatched.1.target hby
      have hnext : (replacement.apply d m).1.Rooted :=
        ⟨hwf.1, Replacement.root_apply_lt hd.wellFormed hd.lt_size hmatched.1.target hby⟩
      have hrest : ∀ later ∈ rest, later.InForest (replacement.apply d m).1.forest :=
        fun later hlater => (hmatched.2 later hlater).mono hwf.2
      rw [replaceAll]
      split
      · split
        · rename_i d₁ e happly
          rw [happly] at hnext
          exact hnext
        · rename_i d₁ applied happly
          rw [happly] at hnext hrest
          exact ih hnext hrest _
      · exact ih hd hmatched.2 _

theorem FindingPass.rooted {text : String} {settings : Settings}
    (h : r.FindingPass rule d d') (hread : CompiledPattern.read text settings = .ok rule.pattern)
    (hr : rule.replacement.Operates) (hd : d.Rooted) : d'.Rooted := by
  obtain ⟨-, t, hpass⟩ := h
  have hmatched : ∀ m ∈ r.found rule d, m.InForest d.forest := fun m hm =>
    CompiledPattern.inForest_of_mem_allMatches hd.wellFormed hd.lt_size
      (CompiledPattern.mem_allMatches_of_mem_findAll hread hd.wellFormed hm)
  have hall := rooted_replaceAll hd hr hmatched {}
  rwa [← pass_eq_replaceAll, hpass] at hall

/-! ### All passes -/

/-- A document with no match is left alone by the first pass, which is the last. -/
theorem repeatPasses_of_found_eq_nil (h : r.found rule d = []) (o : Outcome) (left : Nat) :
    r.repeatPasses rule d o left = (d, .ok (o.add {})) := by
  cases left with
  | zero =>
      rw [repeatPasses, hasMatch_eq_false_iff.mpr h]
      rfl
  | succ left =>
      rw [repeatPasses, pass_of_found_eq_nil h]
      rfl

theorem found_eq_nil_of_repeatPasses (h : r.repeatPasses rule d o left = (d', .ok o')) :
    r.found rule d' = [] ∧
      ∃ n ≤ left, o'.passes = o.passes + n + 1 ∧ Times (r.FindingPass rule) n d d' := by
  induction left generalizing d o with
  | zero =>
      rw [repeatPasses] at h
      split at h
      · cases h
      · rename_i hnone
        cases h
        rw [Bool.not_eq_true, hasMatch_eq_false_iff] at hnone
        exact ⟨hnone, 0, Nat.le_refl 0, rfl, .zero d'⟩
  | succ left ih =>
      rw [repeatPasses] at h
      split at h
      · cases h
      · rename_i d₁ t hpass
        split at h
        · rename_i hlast
          cases h
          rw [found_eq_nil_iff_of_pass hpass] at hlast
          rw [pass_of_found_eq_nil hlast] at hpass
          cases hpass
          exact ⟨hlast, 0, Nat.zero_le _, rfl, .zero d'⟩
        · rename_i hmore
          rw [found_eq_nil_iff_of_pass hpass] at hmore
          obtain ⟨hnone, n, hn, hpasses, htimes⟩ := ih h
          refine ⟨hnone, n + 1, Nat.succ_le_succ hn, ?_, .succ ⟨hmore, t, hpass⟩ htimes⟩
          rw [hpasses, Outcome.passes_add]
          omega

theorem found_ne_nil_of_repeatPasses
    (h : r.repeatPasses rule d o left = (d', .error (.didNotConverge n applications))) :
    n = o.passes + left ∧ Times (r.FindingPass rule) left d d' ∧ r.found rule d' ≠ [] := by
  induction left generalizing d o with
  | zero =>
      rw [repeatPasses] at h
      split at h
      · rename_i hsome
        cases h
        refine ⟨rfl, .zero d', fun hnone => ?_⟩
        rw [hasMatch_eq_false_iff.mpr hnone] at hsome
        exact Bool.noConfusion hsome
      · cases h
  | succ left ih =>
      rw [repeatPasses] at h
      split at h
      · cases h
      · rename_i d₁ t hpass
        split at h
        · cases h
        · rename_i hmore
          rw [found_eq_nil_iff_of_pass hpass] at hmore
          obtain ⟨hn, htimes, hsome⟩ := ih h
          refine ⟨?_, .succ ⟨hmore, t, hpass⟩ htimes, hsome⟩
          rw [hn, Outcome.passes_add]
          omega

/-! ### The whole run -/

/-- A pattern that asks for an unknown predicate is refused. -/
theorem check_of_unknown {ps : Predicates} {p : CompiledPattern}
    (h : ∃ asked ∈ p.predicates, ps.get? asked.1 = none) :
    ∃ asked ∈ p.predicates, ps.get? asked.1 = none ∧
      ps.check p = .error (.unknownPredicate asked.1 asked.2) := by
  obtain ⟨asked, hasked, hnone⟩ := h
  unfold Predicates.check
  split
  · rename_i hfind
    exact absurd (Option.isNone_iff_eq_none.mpr hnone) (List.find?_eq_none.mp hfind asked hasked)
  · rename_i name position hfind
    have hunknown : (ps.get? name).isNone = true := by
      simpa using List.find?_some hfind
    exact ⟨(name, position), List.mem_of_find?_eq_some hfind,
      Option.isNone_iff_eq_none.mp hunknown, rfl⟩

theorem run_of_check_error {e : CompileError} (h : r.predicates.check rule.pattern = .error e) :
    r.run rule d = (d, .error (.compile e)) := by
  rw [run, h]

theorem run_eq_repeatPasses {p : CompiledPattern} (h : r.predicates.check p = .ok ()) :
    r.run { pattern := p, replacement, mode := .repeatedly } d =
      r.repeatPasses { pattern := p, replacement, mode := .repeatedly } d {}
        r.settings.maxPasses := by
  rw [run, h]

/-- **A repeated rule stops only where nothing is left.**  When a run ends well the document has no
match, and the search for one comes to an end; all passes but the last have found a match, and there
is at most one pass more than the limit.  When it gives up it has taken as many passes as the limit
allows, all of which have found a match, and there is one left.  A rule that asks for an unknown
predicate does nothing to the document. -/
theorem run_repeatedly (r : Runner) (p : CompiledPattern) (replacement : Replacement)
    (d : Document) :
    let rule : Rule := { pattern := p, replacement, mode := .repeatedly }
    (∀ d' o, r.run rule d = (d', .ok o) →
      p.findFirst d'.forest r.predicates r.settings d'.root = none ∧
      (∀ text settings, CompiledPattern.read text settings = .ok p → d.Rooted →
        replacement.Operates →
        (p.query d'.forest r.predicates r.settings d'.root).Reports
          (p.query d'.forest r.predicates r.settings d'.root).begin []) ∧
      ∃ n ≤ r.settings.maxPasses, o.passes = n + 1 ∧ Times (r.FindingPass rule) n d d') ∧
    (∀ d' n applications, r.run rule d = (d', .error (.didNotConverge n applications)) →
      n = r.settings.maxPasses ∧ Times (r.FindingPass rule) n d d' ∧
      (p.findFirst d'.forest r.predicates r.settings d'.root).isSome) ∧
    ((∃ asked ∈ p.predicates, r.predicates.get? asked.1 = none) →
      ∃ asked ∈ p.predicates, r.predicates.get? asked.1 = none ∧
        r.run rule d = (d, .error (.compile (.unknownPredicate asked.1 asked.2)))) := by
  intro rule
  refine ⟨fun d' o hrun => ?_, fun d' n applications hrun => ?_, fun hunknown => ?_⟩
  · cases hcheck : r.predicates.check p with
    | error e =>
        rw [run_of_check_error hcheck] at hrun
        cases hrun
    | ok _ =>
        rw [run_eq_repeatPasses hcheck] at hrun
        obtain ⟨hnone, n, hn, hpasses, htimes⟩ := found_eq_nil_of_repeatPasses hrun
        refine ⟨(findFirst_eq_none_iff r rule d').mpr hnone, ?_, n, hn, ?_, htimes⟩
        · intro text settings hread hd hr
          have hd' : d'.Rooted := htimes.keeps (fun _ _ hpass => hpass.rooted hread hr) hd
          exact reports_nil_of_found_eq_nil hread hd'.wellFormed hnone
        · rw [hpasses]
          exact congrArg (· + 1) (Nat.zero_add n)
  · cases hcheck : r.predicates.check p with
    | error e =>
        rw [run_of_check_error hcheck] at hrun
        cases hrun
    | ok _ =>
        rw [run_eq_repeatPasses hcheck] at hrun
        obtain ⟨hn, htimes, hsome⟩ := found_ne_nil_of_repeatPasses hrun
        have hlimit : n = r.settings.maxPasses := hn.trans (Nat.zero_add _)
        refine ⟨hlimit, hlimit ▸ htimes, ?_⟩
        rw [Option.isSome_iff_ne_none]
        exact mt (findFirst_eq_none_iff r rule d').mp hsome
  · obtain ⟨asked, hasked, hnone, hcheck⟩ := check_of_unknown hunknown
    exact ⟨asked, hasked, hnone, run_of_check_error hcheck⟩

open CompiledPattern

/-- Alike siblings are replaced by leaves with a text. -/
def relabelAlike (text : String) (mode : Mode) : Rule where
  pattern := alikeSiblings
  replacement := .template ⟨[.node (.literal text) []]⟩
  mode := mode

/-- Three alike siblings after one pass of it. -/
def relabelled (text : String) : Document :=
  (replaceAll (relabelAlike text .once).replacement threeAlike {} threeAlikeMatches).1

/-- A runner that allows one pass. -/
def onePass : Runner := { settings := { maxPasses := 1 } }

theorem wellFormed_relabelled (text : String) : (relabelled text).forest.WellFormed := by
  have hd : threeAlike.Rooted := ⟨wellFormed_threeAlike, by decide +kernel⟩
  have hr : (relabelAlike text .once).replacement.Operates := fun _ _ _ _ => trivial
  have hmatched : ∀ m ∈ threeAlikeMatches, m.InForest threeAlike.forest := by
    rw [← findAll_threeAlike]
    exact fun m hm => inForest_of_mem_allMatches hd.wellFormed hd.lt_size
      (mem_allMatches_of_mem_findAll read_alikeSiblings hd.wellFormed hm)
  have hall := (rooted_replaceAll hd hr hmatched {}).wellFormed
  rwa [← relabelled] at hall

theorem pass_relabelAlike (text : String) (mode : Mode) :
    onePass.pass (relabelAlike text mode) threeAlike =
      replaceAll (relabelAlike text mode).replacement threeAlike {} threeAlikeMatches := by
  have hfound : onePass.found (relabelAlike text mode) threeAlike = threeAlikeMatches := by
    refine (findAll_eq_take read_alikeSiblings wellFormed_threeAlike).trans ?_
    decide +kernel
  rw [pass_eq_replaceAll, hfound]

theorem found_relabelled_b (mode : Mode) :
    onePass.found (relabelAlike "b" mode) (relabelled "b") = [] := by
  refine (findAll_eq_take read_alikeSiblings (wellFormed_relabelled "b")).trans ?_
  decide +kernel

theorem found_relabelled_a (mode : Mode) :
    onePass.found (relabelAlike "a" mode) (relabelled "a") ≠ [] := by
  refine (findAll_eq_take read_alikeSiblings (wellFormed_relabelled "a")).trans_ne ?_
  decide +kernel

/-- With one pass allowed, it is enough that none of the new leaves matches; one that does is one
too many. -/
theorem run_repeatedly_threeAlike :
    (∃ d', onePass.run (relabelAlike "b" .repeatedly) threeAlike = (d', .ok ⟨3, 2, 0⟩) ∧
      alikeSiblings.findFirst d'.forest {} onePass.settings d'.root = none) ∧
    ∃ d', onePass.run (relabelAlike "a" .repeatedly) threeAlike =
        (d', .error (.didNotConverge 1 3)) ∧
      (alikeSiblings.findFirst d'.forest {} onePass.settings d'.root).isSome := by
  have hrun : ∀ text, onePass.run (relabelAlike text .repeatedly) threeAlike =
      onePass.repeatPasses (relabelAlike text .repeatedly) threeAlike {} 1 :=
    fun text => run_eq_repeatPasses rfl
  have hb : onePass.run (relabelAlike "b" .repeatedly) threeAlike =
      (relabelled "b", .ok ⟨3, 2, 0⟩) := by
    have hpass : onePass.pass (relabelAlike "b" .repeatedly) threeAlike =
        (relabelled "b", .ok ⟨3, 0⟩) := pass_relabelAlike "b" .repeatedly
    rw [hrun, repeatPasses, hpass]
    dsimp only
    rw [if_neg (by decide), repeatPasses, hasMatch_eq_false_iff.mpr (found_relabelled_b _)]
    rfl
  have ha : onePass.run (relabelAlike "a" .repeatedly) threeAlike =
      (relabelled "a", .error (.didNotConverge 1 3)) := by
    have hpass : onePass.pass (relabelAlike "a" .repeatedly) threeAlike =
        (relabelled "a", .ok ⟨3, 0⟩) := pass_relabelAlike "a" .repeatedly
    have hmatch : onePass.hasMatch (relabelAlike "a" .repeatedly) (relabelled "a") = true := by
      rw [← Bool.not_eq_false, hasMatch_eq_false_iff]
      exact found_relabelled_a _
    rw [hrun, repeatPasses, hpass]
    dsimp only
    rw [if_neg (by decide), repeatPasses, hmatch]
    rfl
  exact ⟨⟨_, hb, ((run_repeatedly onePass alikeSiblings _ threeAlike).1 _ _ hb).1⟩,
    _, ha, ((run_repeatedly onePass alikeSiblings _ threeAlike).2.1 _ _ _ ha).2.2⟩

end Runner

end TreeRules
