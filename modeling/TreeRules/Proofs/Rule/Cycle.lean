/-
Running a list of rules until none applies.

Cycles end with one that replaces nothing, and what such a cycle skips is not asked for.  It need
not be: a pass that finds anything replaces its first match, which has lost no node since it was
found.  So a cycle that replaces nothing has found nothing, by no rule, and as it has changed nothing
either all its rules speak of the same document.

This needs the document to be a whole tree at each moment, so that a match found in it lies in it.
A template keeps it so: in the place of the root it puts a single node, which has no parent, and
elsewhere the root stays where it is.
-/
import TreeRules.Proofs.Rule.Once
import TreeRules.Proofs.Rule.Repeat
import TreeRules.Proofs.Rule.Splice

namespace TreeRules

variable {d d' : Document} {m : Match} {template : Template} {matched : List Match}

/-- A rule whose pattern has been read and whose matches are replaced by a template. -/
structure Rule.Templated (rule : Rule) : Prop where
  read : ∃ text settings, CompiledPattern.read text settings = .ok rule.pattern
  template : ∃ template, rule.replacement = .template template

/-! ### A whole document stays whole -/

namespace Document

/-- **A template that takes the place of a target leaves a whole document.**  All that it can refuse
is to put some other number of nodes than one in the place of the root. -/
theorem Whole.apply_cases (hd : d.Whole) (hm : d.Fits m) (template : Template) :
    (∃ d' applied, (Replacement.template template).apply d m = (d', .ok applied) ∧ d'.Whole) ∨
      (m.target = d.root ∧ template.rootCount m ≠ 1 ∧
        (Replacement.template template).apply d m =
          (d, .error (.invalidRootReplacement d.root (template.rootCount m)))) := by
  by_cases hroot : m.target = d.root
  · have htop : d.forest.parent m.target = none := by
      rw [hroot]
      exact hd.parent_root
    rw [apply_root hroot]
    by_cases hcount : template.rootCount m = 1
    · obtain ⟨d', root, happly, rfl, hwf, hlt, hparent, -⟩ := Replacement.applyTemplate_of_top
        hd.wellFormed (hroot ▸ hd.lt_size) htop hcount
      exact Or.inl ⟨d', _, happly, hwf, hlt, hparent⟩
    · rw [Replacement.applyTemplate_of_refused template htop hcount, hroot]
      exact Or.inr ⟨rfl, hcount, rfl⟩
  · obtain ⟨d', applied, happly, hintact⟩ := (Intact.refl hd).apply hd hm
      (fun k hk => absurd hk List.not_mem_nil) hroot template
    refine Or.inl ⟨d', applied, happly, hintact.whole hd fun k hk => ?_⟩
    rwa [List.mem_singleton.mp hk]

theorem Whole.replaceAll (hd : d.Whole) (hmatched : ∀ m ∈ matched, m.target ∈ m.consumed)
    {t : Tally} {answer : Except ApplyError Tally}
    (h : Runner.replaceAll (.template template) d t matched = (d', answer)) : d'.Whole := by
  induction matched generalizing d t with
  | nil =>
      cases h
      exact hd
  | cons m rest ih =>
      rw [List.forall_mem_cons] at hmatched
      rw [Runner.replaceAll] at h
      split at h
      · rename_i hattached
        have hm := (hd.stillAttached_iff hmatched.1).mp hattached
        rcases hd.apply_cases hm template with ⟨d₁, applied, happly, hd₁⟩ | ⟨-, -, happly⟩
        · rw [happly] at h
          exact ih hd₁ hmatched.2 h
        · rw [happly] at h
          cases h
          exact hd
      · exact ih hd hmatched.2 h

end Document

namespace Runner

variable {r : Runner} {rule : Rule} {rules : List Rule} {replacement : Replacement}
  {o o' : Outcome} {t t' : Tally} {left n applications : Nat}

/-! ### Stages of a run -/

/-- A stage of a run leaves a whole document.  It has made replacements, unless there was none to
make and nothing has changed. -/
structure Stage (d d' : Document) (before after : Nat) (idle : Prop) : Prop where
  whole : d'.Whole
  le : before ≤ after
  idle : after = before → d' = d ∧ idle

theorem applications_le_of_replaceAll (h : replaceAll replacement d t matched = (d', .ok t')) :
    t.applications ≤ t'.applications := by
  induction matched generalizing d t with
  | nil =>
      cases h
      exact Nat.le_refl _
  | cons m rest ih =>
      rw [replaceAll] at h
      split at h
      · split at h
        · cases h
        · have hle := ih h
          exact Nat.le_of_succ_le hle
      · have hle := ih h
        exact hle

/-- **A pass that finds anything replaces its first match.** -/
theorem stage_pass (hd : d.Whole) (hrule : rule.Templated) (h : r.pass rule d = (d', .ok t)) :
    Stage d d' 0 t.applications (r.found rule d = []) := by
  obtain ⟨⟨text, settings, hread⟩, template, htemplate⟩ := hrule
  have hfits : ∀ m ∈ r.found rule d, d.Fits m := fun m hm => fits_of_mem_findAll hread hd hm
  rw [pass_eq_replaceAll, htemplate] at h
  refine ⟨hd.replaceAll (fun m hm => (hfits m hm).target_mem) h, Nat.zero_le _, fun hnone => ?_⟩
  cases hfound : r.found rule d with
  | nil =>
      rw [hfound] at h
      cases h
      exact ⟨rfl, rfl⟩
  | cons m rest =>
      have hm := hfits m (hfound ▸ List.mem_cons_self)
      rw [hfound, replaceAll, if_pos ((hd.stillAttached_iff hm.target_mem).mpr hm)] at h
      split at h
      · cases h
      · have hle := applications_le_of_replaceAll h
        dsimp only at hle
        omega

theorem stage_repeatPasses (hd : d.Whole) (hrule : rule.Templated)
    (h : r.repeatPasses rule d o left = (d', .ok o')) :
    Stage d d' o.applications o'.applications (r.found rule d = []) := by
  induction left generalizing d o with
  | zero =>
      rw [repeatPasses] at h
      split at h
      · cases h
      · rename_i hnone
        cases h
        rw [Bool.not_eq_true, hasMatch_eq_false_iff] at hnone
        exact ⟨hd, Nat.le_refl _, fun _ => ⟨rfl, hnone⟩⟩
  | succ left ih =>
      rw [repeatPasses] at h
      split at h
      · cases h
      · rename_i d₁ t hpass
        have hstage := stage_pass hd hrule hpass
        split at h
        · rename_i hlast
          cases h
          rw [Bool.and_eq_true, decide_eq_true_iff] at hlast
          exact ⟨hstage.whole, Nat.le_add_right _ _, fun _ => hstage.idle hlast.1⟩
        · have hrest := ih hstage.whole h
          have hle := hrest.le
          rw [Outcome.applications_add] at hle
          refine ⟨hrest.whole, Nat.le_of_add_right_le hle, fun hnone => ?_⟩
          have hzero : t.applications = 0 := by omega
          obtain ⟨rfl, hfound⟩ := hstage.idle hzero
          refine ⟨(hrest.idle ?_).1, hfound⟩
          rw [Outcome.applications_add]
          omega

/-- **A run that replaces nothing has found nothing.** -/
theorem stage_run (hd : d.Whole) (hrule : rule.Templated) (h : r.run rule d = (d', .ok o)) :
    Stage d d' 0 o.applications (r.found rule d = []) := by
  unfold run at h
  split at h
  · cases h
  split at h
  · split at h
    · cases h
    · rename_i d₁ t hpass
      cases h
      have hstage := stage_pass hd hrule hpass
      refine ⟨hstage.whole, Nat.zero_le _, fun hnone => hstage.idle ?_⟩
      exact (Nat.zero_add _).symm.trans hnone
  · exact stage_repeatPasses hd hrule h

/-- **A cycle that replaces nothing has found nothing**, by none of its rules. -/
theorem stage_cycle (hd : d.Whole) (hrules : ∀ rule ∈ rules, rule.Templated)
    (h : r.cycle d t rules = (d', .ok t')) :
    Stage d d' t.applications t'.applications (∀ rule ∈ rules, r.found rule d = []) := by
  induction rules generalizing d t with
  | nil =>
      cases h
      exact ⟨hd, Nat.le_refl _, fun _ => ⟨rfl, fun rule hrule => absurd hrule List.not_mem_nil⟩⟩
  | cons rule rest ih =>
      rw [List.forall_mem_cons] at hrules
      rw [cycle] at h
      split at h
      · cases h
      · rename_i d₁ o hrun
        have hstage := stage_run hd hrules.1 hrun
        have hrest := ih hstage.whole hrules.2 h
        have hle := hrest.le
        dsimp only at hle
        refine ⟨hrest.whole, Nat.le_of_add_right_le hle, fun hnone => ?_⟩
        have hzero : o.applications = 0 := by omega
        obtain ⟨rfl, hfound⟩ := hstage.idle hzero
        obtain ⟨hsame, hothers⟩ := hrest.idle (by dsimp only; omega)
        exact ⟨hsame, List.forall_mem_cons.mpr ⟨hfound, hothers⟩⟩

/-! ### All cycles -/

/-- A cycle that makes a replacement and does not fail. -/
def ApplyingCycle (r : Runner) (rules : List Rule) (d d' : Document) : Prop :=
  ∃ t, r.cycle d {} rules = (d', .ok t) ∧ 0 < t.applications

/-- A rule fails, when those before it in the list have been run. -/
def RuleFails (r : Runner) (rules : List Rule) (d : Document) (t : Tally) (d' : Document)
    (e : RunError) : Prop :=
  ∃ before rule after d₁ t₁, rules = before ++ rule :: after ∧
    r.cycle d t before = (d₁, .ok t₁) ∧ r.run rule d₁ = (d', .error e)

theorem ruleFails_of_cycle {e : RunError} (h : r.cycle d t rules = (d', .error e)) :
    r.RuleFails rules d t d' e := by
  induction rules generalizing d t with
  | nil => cases h
  | cons rule rest ih =>
      rw [cycle] at h
      split at h
      · rename_i d₁ e₁ hrun
        cases h
        exact ⟨[], rule, rest, d, t, rfl, rfl, hrun⟩
      · rename_i d₁ o hrun
        obtain ⟨before, failing, after, d₂, t₂, hrest, hbefore, hfails⟩ := ih h
        refine ⟨rule :: before, failing, after, d₂, t₂, congrArg (rule :: ·) hrest, ?_, hfails⟩
        rw [cycle, hrun]
        exact hbefore

/-- Only a repeated rule gives up. -/
theorem mode_of_didNotConverge
    (h : r.run rule d = (d', .error (.didNotConverge n applications))) :
    rule.mode = .repeatedly := by
  unfold run at h
  split at h
  · cases h
  split at h
  · split at h
    · cases h
    · cases h
  · assumption

theorem any_hasMatch_eq_false_iff :
    rules.any (r.hasMatch · d) = false ↔ ∀ rule ∈ rules, r.found rule d = [] := by
  rw [List.any_eq_false]
  refine forall₂_congr fun rule _ => ?_
  rw [Bool.not_eq_true, hasMatch_eq_false_iff]

theorem found_eq_nil_of_repeatCycles (hd : d.Whole) (hrules : ∀ rule ∈ rules, rule.Templated)
    (h : r.repeatCycles rules d o left = (d', .ok o')) :
    d'.Whole ∧ (∀ rule ∈ rules, r.found rule d' = []) ∧
      ∃ n ≤ left, o'.passes = o.passes + n + 1 ∧ Times (r.ApplyingCycle rules) n d d' := by
  induction left generalizing d o with
  | zero =>
      rw [repeatCycles] at h
      split at h
      · cases h
      · rename_i hnone
        cases h
        rw [Bool.not_eq_true, any_hasMatch_eq_false_iff] at hnone
        exact ⟨hd, hnone, 0, Nat.le_refl 0, rfl, .zero d'⟩
  | succ left ih =>
      rw [repeatCycles] at h
      split at h
      · cases h
      · rename_i d₁ t hcycle
        have hstage := stage_cycle hd hrules hcycle
        split at h
        · rename_i hlast
          cases h
          obtain ⟨rfl, hnone⟩ := hstage.idle hlast
          exact ⟨hd, hnone, 0, Nat.zero_le _, rfl, .zero d'⟩
        · rename_i hmore
          obtain ⟨hwhole, hnone, n, hn, hpasses, htimes⟩ := ih hstage.whole h
          refine ⟨hwhole, hnone, n + 1, Nat.succ_le_succ hn, ?_,
            .succ ⟨t, hcycle, Nat.pos_of_ne_zero hmore⟩ htimes⟩
          rw [hpasses, Outcome.passes_add]
          omega

theorem found_ne_nil_of_repeatCycles
    (h : r.repeatCycles rules d o left = (d', .error (.didNotConverge n applications))) :
    (∃ k < left, ∃ d₁, Times (r.ApplyingCycle rules) k d d₁ ∧
      r.RuleFails rules d₁ {} d' (.didNotConverge n applications)) ∨
    (n = o.passes + left ∧ Times (r.ApplyingCycle rules) left d d' ∧
      ∃ rule ∈ rules, r.found rule d' ≠ []) := by
  induction left generalizing d o with
  | zero =>
      rw [repeatCycles] at h
      split at h
      · rename_i hsome
        cases h
        obtain ⟨rule, hrule, hmatch⟩ := List.any_eq_true.mp hsome
        refine Or.inr ⟨rfl, .zero d', rule, hrule, fun hnone => ?_⟩
        rw [hasMatch_eq_false_iff.mpr hnone] at hmatch
        exact Bool.noConfusion hmatch
      · cases h
  | succ left ih =>
      rw [repeatCycles] at h
      split at h
      · rename_i d₁ e hcycle
        cases h
        exact Or.inl ⟨0, Nat.succ_pos left, d, .zero d, ruleFails_of_cycle hcycle⟩
      · rename_i d₁ t hcycle
        split at h
        · cases h
        · rename_i hmore
          have happlying : r.ApplyingCycle rules d d₁ := ⟨t, hcycle, Nat.pos_of_ne_zero hmore⟩
          rcases ih h with ⟨k, hk, d₂, htimes, hfails⟩ | ⟨hn, htimes, hsome⟩
          · exact Or.inl ⟨k + 1, Nat.succ_lt_succ hk, d₂, .succ happlying htimes, hfails⟩
          · refine Or.inr ⟨?_, .succ happlying htimes, hsome⟩
            rw [hn, Outcome.passes_add]
            omega

/-! ### The whole run -/

theorem runAll_cases (r : Runner) (rules : List Rule) (d : Document) :
    (∃ e, r.runAll rules d = (d, .error (.compile e))) ∨
      r.runAll rules d = r.repeatCycles rules d {} r.settings.maxPasses := by
  unfold runAll
  split
  · exact Or.inl ⟨_, rfl⟩
  · exact Or.inr rfl

/-- **Rules stop only where none of them applies.**  When a run of rules ends well none of them has
a match in the document, and the searches for one come to an end; all cycles but the last have made a
replacement, and there is at most one cycle more than the limit.  When it gives up, one of the rules
has done so by itself, or there were as many cycles as the limit allows, each has made a
replacement, and some rule has a match left. -/
theorem runAll_stops (hd : d.Whole) (hrules : ∀ rule ∈ rules, rule.Templated) :
    (∀ d' o, r.runAll rules d = (d', .ok o) →
      (∀ rule ∈ rules,
        rule.pattern.findFirst d'.forest r.predicates r.settings d'.root = none ∧
        (rule.pattern.query d'.forest r.predicates r.settings d'.root).Reports
          (rule.pattern.query d'.forest r.predicates r.settings d'.root).begin []) ∧
      ∃ n ≤ r.settings.maxPasses, o.passes = n + 1 ∧ Times (r.ApplyingCycle rules) n d d') ∧
    ∀ d' n applications, r.runAll rules d = (d', .error (.didNotConverge n applications)) →
      (∃ k < r.settings.maxPasses, ∃ d₁, Times (r.ApplyingCycle rules) k d d₁ ∧
        r.RuleFails rules d₁ {} d' (.didNotConverge n applications)) ∨
      (n = r.settings.maxPasses ∧ Times (r.ApplyingCycle rules) n d d' ∧
        ∃ rule ∈ rules,
          (rule.pattern.findFirst d'.forest r.predicates r.settings d'.root).isSome) := by
  refine ⟨fun d' o hrun => ?_, fun d' n applications hrun => ?_⟩
  · rcases runAll_cases r rules d with ⟨e, hrefused⟩ | haccepted
    · rw [hrefused] at hrun
      cases hrun
    · rw [haccepted] at hrun
      obtain ⟨hwhole, hnone, n, hn, hpasses, htimes⟩ := found_eq_nil_of_repeatCycles hd hrules hrun
      refine ⟨fun rule hrule => ?_, n, hn, ?_, htimes⟩
      · obtain ⟨text, settings, hread⟩ := (hrules rule hrule).read
        exact ⟨(findFirst_eq_none_iff r rule d').mpr (hnone rule hrule),
          reports_nil_of_found_eq_nil hread hwhole.wellFormed (hnone rule hrule)⟩
      · rw [hpasses]
        exact congrArg (· + 1) (Nat.zero_add n)
  · rcases runAll_cases r rules d with ⟨e, hrefused⟩ | haccepted
    · rw [hrefused] at hrun
      cases hrun
    · rw [haccepted] at hrun
      refine (found_ne_nil_of_repeatCycles hrun).imp_right ?_
      rintro ⟨hn, htimes, rule, hrule, hsome⟩
      have hlimit : n = r.settings.maxPasses := hn.trans (Nat.zero_add _)
      refine ⟨hlimit, hlimit ▸ htimes, rule, hrule, ?_⟩
      rw [Option.isSome_iff_ne_none]
      exact mt (findFirst_eq_none_iff r rule d').mp hsome

theorem templated_relabelAlike (text : String) (mode : Mode) :
    (relabelAlike text mode).Templated :=
  ⟨⟨_, _, CompiledPattern.read_alikeSiblings⟩, _, rfl⟩

open CompiledPattern

theorem runAll_relabelAlike_b :
    onePass.runAll [relabelAlike "b" .once, relabelAlike "b" .repeatedly] threeAlike =
      (relabelled "b", .ok { applications := 3, passes := 2, skipped := 0 }) := by
  have hpass : onePass.pass (relabelAlike "b" .once) threeAlike =
      (relabelled "b", .ok ⟨3, 0⟩) := pass_relabelAlike "b" .once
  have honce : onePass.run (relabelAlike "b" .once) threeAlike =
      (relabelled "b", .ok ⟨3, 1, 0⟩) := run_of_replaceAll rfl hpass
  have hagain : onePass.run (relabelAlike "b" .repeatedly) (relabelled "b") =
      (relabelled "b", .ok ⟨0, 1, 0⟩) := by
    refine (run_eq_repeatPasses rfl).trans ?_
    show onePass.repeatPasses (relabelAlike "b" .repeatedly) (relabelled "b") {} 1 = _
    rw [repeatPasses, pass_of_found_eq_nil (found_relabelled_b _)]
    rfl
  have hcycle : onePass.cycle threeAlike {} [relabelAlike "b" .once, relabelAlike "b" .repeatedly] =
      (relabelled "b", .ok ⟨3, 0⟩) := by
    rw [cycle, honce]
    dsimp only
    rw [cycle, hagain]
    rfl
  have hnone : [relabelAlike "b" .once, relabelAlike "b" .repeatedly].any
      (onePass.hasMatch · (relabelled "b")) = false := by
    simp [hasMatch_eq_false_iff, found_relabelled_b]
  show onePass.repeatCycles _ threeAlike {} 1 = _
  rw [repeatCycles, hcycle]
  dsimp only
  rw [if_neg (by decide), repeatCycles, hnone]
  rfl

theorem runAll_relabelAlike_a :
    onePass.runAll [relabelAlike "a" .once] threeAlike =
      (relabelled "a", .error (.didNotConverge 1 3)) := by
  have hpass : onePass.pass (relabelAlike "a" .once) threeAlike =
      (relabelled "a", .ok ⟨3, 0⟩) := pass_relabelAlike "a" .once
  have honce : onePass.run (relabelAlike "a" .once) threeAlike =
      (relabelled "a", .ok ⟨3, 1, 0⟩) := run_of_replaceAll rfl hpass
  have hcycle : onePass.cycle threeAlike {} [relabelAlike "a" .once] =
      (relabelled "a", .ok ⟨3, 0⟩) := by
    rw [cycle, honce]
    rfl
  have hsome : [relabelAlike "a" .once].any (onePass.hasMatch · (relabelled "a")) = true := by
    rw [← Bool.not_eq_false, any_hasMatch_eq_false_iff, List.forall_mem_singleton]
    exact found_relabelled_a _
  show onePass.repeatCycles _ threeAlike {} 1 = _
  rw [repeatCycles, hcycle]
  dsimp only
  rw [if_neg (by decide), repeatCycles, hsome]
  rfl

/-- Two rules end together if the first leaves nothing to either.  One that makes new matches does
not end, and as it is not repeated it is not the rule that gives up. -/
theorem runAll_stops_threeAlike :
    (∃ d', onePass.runAll [relabelAlike "b" .once, relabelAlike "b" .repeatedly] threeAlike =
        (d', .ok ⟨3, 2, 0⟩) ∧
      alikeSiblings.findFirst d'.forest {} onePass.settings d'.root = none) ∧
    ∃ d', onePass.runAll [relabelAlike "a" .once] threeAlike =
        (d', .error (.didNotConverge 1 3)) ∧
      (alikeSiblings.findFirst d'.forest {} onePass.settings d'.root).isSome := by
  have hrulesb : ∀ rule ∈ [relabelAlike "b" .once, relabelAlike "b" .repeatedly],
      rule.Templated := by
    simp [templated_relabelAlike]
  have hrulesa : ∀ rule ∈ [relabelAlike "a" .once], rule.Templated := by
    simp [templated_relabelAlike]
  have hends := (runAll_stops whole_threeAlike hrulesb).1 _ _ runAll_relabelAlike_b
  have hstays := (runAll_stops whole_threeAlike hrulesa).2 _ _ _ runAll_relabelAlike_a
  refine ⟨⟨_, runAll_relabelAlike_b, (hends.1 _ List.mem_cons_self).1⟩, _,
    runAll_relabelAlike_a, ?_⟩
  rcases hstays with ⟨-, -, d₁, -, before, rule, after, d₂, t, hsplit, -, hfails⟩ |
    ⟨-, -, rule, hrule, hsome⟩
  · have hrule : rule ∈ [relabelAlike "a" .once] := by simp [hsplit]
    have hmode := mode_of_didNotConverge hfails
    rw [List.mem_singleton.mp hrule] at hmode
    exact Mode.noConfusion hmode
  · rw [List.mem_singleton.mp hrule] at hsome
    exact hsome

end Runner

end TreeRules
