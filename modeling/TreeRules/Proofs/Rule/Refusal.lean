/-
What a run of templates may end with.

A run is made of passes, and a pass may come to a match that is refused.  Matches may overlap, so an
earlier replacement may have moved a match's nodes, cloned them, cut them off or put them at the top
of the document.  A match that has lost a node is skipped.  One that has all its nodes has a target
with a place, so it can be replaced, but for one case: its target is the document's root by now and
the template does not stand for a single node there.

So a run leaves a whole document, whether it ends well, gives up or is refused, and no match is come
to whose target is no longer part of the document.
-/
import TreeRules.Proofs.Rule.Cycle

namespace TreeRules.Runner

variable {r : Runner} {rule : Rule} {rules rest : List Rule} {d d₁ d₂ d' : Document} {o : Outcome}
  {t : Tally} {template : Template} {m : Match} {matched : List Match} {e : ApplyError}
  {refused : Option ApplyError} {left : Nat}

/-! ### Passes, and a match that is refused -/

/-- Some passes of the rules, none of which fails, lead from one document to another. -/
def Passes (r : Runner) (rules : List Rule) : Document → Document → Prop :=
  Relation.ReflTransGen fun d d' => ∃ rule ∈ rules, ∃ t, r.pass rule d = (d', .ok t)

/-- A pass over `d` comes to the match `m`, which is refused.  The matches before it have been dealt
with, which has led to `d'`, where it has all its nodes.  Its target is the root there, and the
template stands for some other number of nodes than one. -/
structure Refuses (r : Runner) (rule : Rule) (template : Template) (d d' : Document) (m : Match) :
    Prop where
  replacement : rule.replacement = .template template
  turn : ∃ before after t, r.found rule d = before ++ m :: after ∧
    replaceAll rule.replacement d {} before = (d', .ok t)
  fits : d'.Fits m
  target : m.target = d'.root
  count : template.rootCount m ≠ 1

/-- What a run has come to by passes of the rules: a document, and the error that is reported there
if a match has been refused. -/
inductive Ends (r : Runner) (rules : List Rule) (d : Document) :
    Document → Option ApplyError → Prop
  | passed {d' : Document} (h : r.Passes rules d d') : Ends r rules d d' none
  | refused {rule : Rule} {template : Template} {d₁ d' : Document} {m : Match}
      (hrule : rule ∈ rules) (h : r.Passes rules d d₁) (hm : r.Refuses rule template d₁ d' m) :
      Ends r rules d d' (some (.invalidRootReplacement d'.root (template.rootCount m)))

theorem Ends.passes (h : r.Ends rules d d' none) : r.Passes rules d d' := by
  cases h with
  | passed h => exact h

theorem Ends.after (h : r.Ends rules d₁ d' refused) (hfirst : r.Passes rules d d₁) :
    r.Ends rules d d' refused := by
  cases h with
  | passed h => exact .passed (hfirst.trans h)
  | refused hrule h hm => exact .refused hrule (hfirst.trans h) hm

theorem target_mem_of_found (hd : d.Whole) (hrule : rule.Templated) :
    ∀ m ∈ r.found rule d, m.target ∈ m.consumed := by
  obtain ⟨text, settings, hread⟩ := hrule.read
  exact fun m hm => (fits_of_mem_findAll hread hd hm).target_mem

theorem whole_of_pass (hd : d.Whole) (hrule : rule.Templated)
    {answer : Except ApplyError Tally} (h : r.pass rule d = (d', answer)) : d'.Whole := by
  have hmem := target_mem_of_found (r := r) hd hrule
  obtain ⟨template, htemplate⟩ := hrule.template
  rw [pass_eq_replaceAll, htemplate] at h
  exact hd.replaceAll hmem h

theorem Passes.whole (h : r.Passes rules d d') (hd : d.Whole)
    (hrules : ∀ rule ∈ rules, rule.Templated) : d'.Whole := by
  induction h with
  | refl => exact hd
  | tail _ hpass ih =>
      obtain ⟨rule, hrule, t, hpass⟩ := hpass
      exact whole_of_pass ih (hrules rule hrule) hpass

theorem Ends.whole (h : r.Ends rules d d' refused) (hd : d.Whole)
    (hrules : ∀ rule ∈ rules, rule.Templated) : d'.Whole := by
  cases h with
  | passed h => exact h.whole hd hrules
  | refused hrule h hm =>
      have hd₁ := h.whole hd hrules
      obtain ⟨before, after, t, hfound, hbefore⟩ := hm.turn
      have hmem := target_mem_of_found (r := r) hd₁ (hrules _ hrule)
      rw [hm.replacement] at hbefore
      exact hd₁.replaceAll (fun k hk => hmem k (hfound ▸ List.mem_append_left _ hk)) hbefore

/-! ### One pass -/

/-- **The only match that is refused has the root as its target.** -/
theorem exists_of_replaceAll_error (hd : d.Whole)
    (hmatched : ∀ m ∈ matched, m.target ∈ m.consumed)
    (h : replaceAll (.template template) d t matched = (d', .error e)) :
    ∃ before m after t', matched = before ++ m :: after ∧
      replaceAll (.template template) d t before = (d', .ok t') ∧ d'.Fits m ∧
      m.target = d'.root ∧ template.rootCount m ≠ 1 ∧
      e = .invalidRootReplacement d'.root (template.rootCount m) := by
  induction matched generalizing d t with
  | nil => cases h
  | cons k rest ih =>
      rw [List.forall_mem_cons] at hmatched
      rw [replaceAll] at h
      split at h
      · rename_i hattached
        have hk := (hd.stillAttached_iff hmatched.1).mp hattached
        rcases hd.apply_cases hk template with ⟨d₁, applied, happly, hd₁⟩ | ⟨hroot, hcount, happly⟩
        · rw [happly] at h
          obtain ⟨before, m, after, t', rfl, hbefore, hm⟩ := ih hd₁ hmatched.2 h
          refine ⟨k :: before, m, after, t', rfl, ?_, hm⟩
          rw [replaceAll, if_pos hattached, happly]
          exact hbefore
        · rw [happly] at h
          cases h
          exact ⟨[], k, rest, t, rfl, rfl, hk, hroot, hcount, rfl⟩
      · rename_i hlost
        obtain ⟨before, m, after, t', rfl, hbefore, hm⟩ := ih hd hmatched.2 h
        refine ⟨k :: before, m, after, t', rfl, ?_, hm⟩
        rw [replaceAll, if_neg hlost]
        exact hbefore

theorem passes_of_pass (hrule : rule ∈ rules) (h : r.pass rule d = (d', .ok t)) :
    r.Passes rules d d' := .single ⟨rule, hrule, t, h⟩

theorem ends_of_pass_error (hd : d.Whole) (hrules : ∀ rule ∈ rules, rule.Templated)
    (hrule : rule ∈ rules) (h : r.pass rule d = (d', .error e)) :
    r.Ends rules d d' (some e) := by
  have hmem := target_mem_of_found (r := r) hd (hrules rule hrule)
  obtain ⟨template, htemplate⟩ := (hrules rule hrule).template
  rw [pass_eq_replaceAll, htemplate] at h
  obtain ⟨before, m, after, t, hfound, hbefore, hfits, htarget, hcount, rfl⟩ :=
    exists_of_replaceAll_error hd hmem h
  rw [← htemplate] at hbefore
  exact .refused hrule .refl ⟨htemplate, ⟨before, after, t, hfound, hbefore⟩, hfits, htarget, hcount⟩

/-! ### All passes, and all cycles -/

/-- The error of a replacement that has been refused, if that is why there is no outcome. -/
def refusal? {α : Type} : Except RunError α → Option ApplyError
  | .error (.apply e) => some e
  | _ => none

theorem refusal?_error {α β : Type} (e : RunError) :
    refusal? (.error e : Except RunError α) = refusal? (.error e : Except RunError β) := by
  cases e <;> rfl

theorem ends_repeatPasses (hd : d.Whole) (hrules : ∀ rule ∈ rules, rule.Templated)
    (hrule : rule ∈ rules) {answer : Except RunError Outcome}
    (h : r.repeatPasses rule d o left = (d', answer)) :
    r.Ends rules d d' (refusal? answer) := by
  induction left generalizing d o with
  | zero =>
      rw [repeatPasses] at h
      split at h
      · cases h
        exact .passed .refl
      · cases h
        exact .passed .refl
  | succ left ih =>
      rw [repeatPasses] at h
      split at h
      · rename_i d₁ e hpass
        cases h
        exact ends_of_pass_error hd hrules hrule hpass
      · rename_i d₁ t hpass
        have hpasses := passes_of_pass hrule hpass
        split at h
        · cases h
          exact .passed hpasses
        · exact (ih (hpasses.whole hd hrules) h).after hpasses

theorem ends_run (hd : d.Whole) (hrules : ∀ rule ∈ rules, rule.Templated) (hrule : rule ∈ rules)
    {answer : Except RunError Outcome} (h : r.run rule d = (d', answer)) :
    r.Ends rules d d' (refusal? answer) := by
  unfold run at h
  split at h
  · cases h
    exact .passed .refl
  split at h
  · split at h
    · rename_i d₁ e hpass
      cases h
      exact ends_of_pass_error hd hrules hrule hpass
    · rename_i d₁ t hpass
      cases h
      exact .passed (passes_of_pass hrule hpass)
  · exact ends_repeatPasses hd hrules hrule h

theorem ends_cycle (hd : d.Whole) (hrules : ∀ rule ∈ rules, rule.Templated) (hrest : rest ⊆ rules)
    {answer : Except RunError Tally} (h : r.cycle d t rest = (d', answer)) :
    r.Ends rules d d' (refusal? answer) := by
  induction rest generalizing d t with
  | nil =>
      cases h
      exact .passed .refl
  | cons rule rest ih =>
      obtain ⟨hrule, hrest⟩ := List.cons_subset.mp hrest
      rw [cycle] at h
      split at h
      · rename_i d₁ e hrun
        cases h
        rw [refusal?_error e]
        exact ends_run hd hrules hrule hrun
      · rename_i d₁ o hrun
        have hpasses := (ends_run hd hrules hrule hrun).passes
        exact (ih (hpasses.whole hd hrules) hrest h).after hpasses

theorem ends_repeatCycles (hd : d.Whole) (hrules : ∀ rule ∈ rules, rule.Templated)
    {answer : Except RunError Outcome} (h : r.repeatCycles rules d o left = (d', answer)) :
    r.Ends rules d d' (refusal? answer) := by
  induction left generalizing d o with
  | zero =>
      rw [repeatCycles] at h
      split at h
      · cases h
        exact .passed .refl
      · cases h
        exact .passed .refl
  | succ left ih =>
      rw [repeatCycles] at h
      split at h
      · rename_i d₁ e hcycle
        cases h
        rw [refusal?_error e]
        exact ends_cycle hd hrules (List.Subset.refl rules) hcycle
      · rename_i d₁ t hcycle
        have hpasses := (ends_cycle hd hrules (List.Subset.refl rules) hcycle).passes
        split at h
        · cases h
          exact .passed hpasses
        · exact (ih (hpasses.whole hd hrules) h).after hpasses

theorem ends_runAll (hd : d.Whole) (hrules : ∀ rule ∈ rules, rule.Templated)
    {answer : Except RunError Outcome} (h : r.runAll rules d = (d', answer)) :
    r.Ends rules d d' (refusal? answer) := by
  rcases runAll_cases r rules d with ⟨e, hrefused⟩ | haccepted
  · rw [hrefused] at h
    cases h
    exact .passed .refl
  · rw [haccepted] at h
    exact ends_repeatCycles hd hrules h

/-! ### Where passes lead -/

theorem replaceAll_append {replacement : Replacement} {before : List Match} {t' : Tally}
    (h : replaceAll replacement d t before = (d', .ok t')) (after : List Match) :
    replaceAll replacement d t (before ++ after) = replaceAll replacement d' t' after := by
  induction before generalizing d t with
  | nil =>
      cases h
      rfl
  | cons m before ih =>
      rw [replaceAll] at h
      rw [List.cons_append, replaceAll]
      split at h
      · rename_i hattached
        rw [if_pos hattached]
        split at h
        · cases h
        · exact ih h
      · rename_i hlost
        rw [if_neg hlost]
        exact ih h

/-- A pass that comes to a match that is refused fails there. -/
theorem Refuses.pass_eq (h : r.Refuses rule template d d' m) (hd' : d'.Whole) :
    r.pass rule d = (d', .error (.invalidRootReplacement d'.root (template.rootCount m))) := by
  obtain ⟨before, after, t, hfound, hbefore⟩ := h.turn
  have hattached := (hd'.stillAttached_iff h.fits.target_mem).mpr h.fits
  have hrefused : rule.replacement.apply d' m =
      (d', .error (.invalidRootReplacement d'.root (template.rootCount m))) := by
    rw [h.replacement, Document.apply_root h.target, Replacement.applyTemplate_of_refused template
      (by rw [h.target]; exact hd'.parent_root) h.count, h.target]
  rw [pass_eq_replaceAll, hfound, replaceAll_append hbefore, replaceAll, if_pos hattached,
    hrefused]

/-- **A run that ends well has come to no match that is refused.**  Passes are determined by the
document, so all passes of the rule lie on the way of the run or behind its end, where nothing is
found. -/
theorem not_refuses_of_repeatPasses {o' : Outcome} (hd : d.Whole) (hrule : rule.Templated)
    (h : r.repeatPasses rule d o left = (d', .ok o')) (hpasses : r.Passes [rule] d d₁) :
    ¬ r.Refuses rule template d₁ d₂ m := by
  intro hm
  have hrules : ∀ rule' ∈ [rule], rule'.Templated := List.forall_mem_singleton.mpr hrule
  have hrefused : r.Ends [rule] d d₂ _ := .refused List.mem_cons_self hpasses hm
  have hfails := hm.pass_eq (hrefused.whole hd hrules)
  have hfound : r.found rule d₁ ≠ [] := by
    obtain ⟨before, after, t, hfound, -⟩ := hm.turn
    rw [hfound]
    exact List.append_ne_nil_of_right_ne_nil _ (List.cons_ne_nil _ _)
  have hnone := (found_eq_nil_of_repeatPasses h).1
  have hend := (ends_repeatPasses hd hrules List.mem_cons_self h).passes
  have hunique : Relator.RightUnique
      fun d d' => ∃ rule' ∈ [rule], ∃ t, r.pass rule' d = (d', .ok t) := by
    rintro a b c ⟨_, hb, t, hpass⟩ ⟨_, hc, t', hpass'⟩
    rw [List.mem_singleton.mp hb] at hpass
    rw [List.mem_singleton.mp hc] at hpass'
    exact (Prod.mk.inj (hpass.symm.trans hpass')).1
  rcases Relation.ReflTransGen.total_of_right_unique hunique hpasses hend with hon | hbehind
  · rcases Relation.ReflTransGen.cases_head hon with rfl | ⟨d₃, ⟨_, hmem, t, hpass⟩, -⟩
    · exact hfound hnone
    · rw [List.mem_singleton.mp hmem, hfails] at hpass
      cases hpass
  · -- behind the end, passes change nothing
    have hstays : d₁ = d' := by
      clear hpasses hm hrefused hfails hfound
      induction hbehind with
      | refl => rfl
      | tail _ hstep ih =>
          obtain ⟨_, hmem, t, hpass⟩ := hstep
          rw [List.mem_singleton.mp hmem, ih, pass_of_found_eq_nil hnone] at hpass
          exact (Prod.mk.inj hpass).1.symm
    rw [hstays] at hfound
    exact hfound hnone

/-! ### Whatever a run answers -/

theorem Ends.exists_of_apply {answer : Except RunError Outcome}
    (h : r.Ends rules d d' (refusal? answer)) (hanswer : answer = .error (.apply e)) :
    ∃ rule ∈ rules, ∃ template d₁ m, r.Passes rules d d₁ ∧ r.Refuses rule template d₁ d' m ∧
      e = .invalidRootReplacement d'.root (template.rootCount m) := by
  subst hanswer
  cases h with
  | refused hrule h hm => exact ⟨_, hrule, _, _, _, h, hm, rfl⟩

/-- **No run of templates breaks a document.**  Whatever a rule or a list of rules answers when it
has been run, it leaves a well-formed forest in which the document's root has no parent.  The only
replacement that fails is that of a match whose target is the root at that moment, by a template
that does not stand for a single node there. -/
theorem run_keeps_whole (r : Runner) (hd : d.Whole) (hrules : ∀ rule ∈ rules, rule.Templated) :
    (∀ rule ∈ rules, ∀ d' answer, r.run rule d = (d', answer) →
      (d'.forest.WellFormed ∧ d'.root < d'.forest.size ∧ d'.forest.parent d'.root = none) ∧
      ∀ e, answer = .error (.apply e) → ∃ template d₁ m, r.Passes [rule] d d₁ ∧
        r.Refuses rule template d₁ d' m ∧
        e = .invalidRootReplacement d'.root (template.rootCount m)) ∧
    ∀ d' answer, r.runAll rules d = (d', answer) →
      (d'.forest.WellFormed ∧ d'.root < d'.forest.size ∧ d'.forest.parent d'.root = none) ∧
      ∀ e, answer = .error (.apply e) → ∃ rule ∈ rules, ∃ template d₁ m,
        r.Passes rules d d₁ ∧ r.Refuses rule template d₁ d' m ∧
        e = .invalidRootReplacement d'.root (template.rootCount m) := by
  constructor
  · intro rule hrule d' answer hrun
    have hone : ∀ other ∈ [rule], other.Templated := by
      rw [List.forall_mem_singleton]
      exact hrules rule hrule
    have hends := ends_run hd hone List.mem_cons_self hrun
    have hwhole := hends.whole hd hone
    refine ⟨⟨hwhole.wellFormed, hwhole.lt_size, hwhole.parent_root⟩, fun e hanswer => ?_⟩
    obtain ⟨other, hother, hrefused⟩ := hends.exists_of_apply hanswer
    rwa [List.mem_singleton.mp hother] at hrefused
  · intro d' answer hrun
    have hends := ends_runAll hd hrules hrun
    have hwhole := hends.whole hd hrules
    exact ⟨⟨hwhole.wellFormed, hwhole.lt_size, hwhole.parent_root⟩,
      fun e hanswer => hends.exists_of_apply hanswer⟩

open CompiledPattern

/-- A runner that lets matches overlap. -/
def overlapping : Runner := { settings := { allowOverlap := true } }

/-- Alike siblings are replaced by what a template makes of them. -/
def replaceAlike (template : Template) : Rule where
  pattern := alikeSiblings
  replacement := .template template
  mode := .once

/-- A template that puts a new node above the target. -/
def wrapTarget : Template := ⟨[.node (.literal "a") [.node .target []]]⟩

/-- A node with one leaf, both of the same text. -/
def nested : Document := Document.ofTree (.node "a" [.node "a" []])

/-- The same with a new node above each. -/
def wrapped : Document :=
  (replaceAll (.template wrapTarget) nested {}
    [⟨0, 0, [0], [("x", .single 0)]⟩, ⟨1, 1, [1], [("x", .single 1)]⟩]).1

theorem templated_replaceAlike (template : Template) : (replaceAlike template).Templated :=
  ⟨⟨_, _, read_alikeSiblings⟩, _, rfl⟩

theorem whole_nested : nested.Whole where
  wellFormed := Forest.wellFormed_ofTree _
  lt_size := by decide +kernel
  parent_root := by decide +kernel

theorem findAll_nested :
    alikeSiblings.findAll nested.forest {} overlapping.settings nested.root =
      [⟨0, 0, [0], [("x", .single 0)]⟩, ⟨1, 1, [1], [("x", .single 1)]⟩] := by
  refine (findAll_eq_take read_alikeSiblings whole_nested.wellFormed).trans ?_
  decide +kernel

theorem pass_nested : overlapping.pass (replaceAlike wrapTarget) nested = (wrapped, .ok ⟨2, 0⟩) := by
  have hfound : overlapping.found (replaceAlike wrapTarget) nested = _ := findAll_nested
  rw [pass_eq_replaceAll, hfound]
  rfl

theorem pass_wrapped :
    overlapping.pass (replaceAlike ⟨[]⟩) wrapped =
      (wrapped, .error (.invalidRootReplacement 2 0)) := by
  have hwhole := whole_of_pass whole_nested (templated_replaceAlike _) pass_nested
  have hfound : overlapping.found (replaceAlike ⟨[]⟩) wrapped =
      [⟨2, 2, [2], [("x", .single 2)]⟩, ⟨0, 0, [0], [("x", .single 0)]⟩,
        ⟨3, 3, [3], [("x", .single 3)]⟩, ⟨1, 1, [1], [("x", .single 1)]⟩] := by
    refine (findAll_eq_take read_alikeSiblings hwhole.wellFormed).trans ?_
    decide +kernel
  rw [pass_eq_replaceAll, hfound]
  rfl

/-- The first rule puts a new node above the root and another above the leaf, which the root's
replacement has taken along.  The second would take the new root away. -/
theorem run_keeps_whole_nested :
    overlapping.runAll [replaceAlike wrapTarget, replaceAlike ⟨[]⟩] nested =
        (wrapped, .error (.apply (.invalidRootReplacement 2 0))) ∧
      (wrapped.forest.WellFormed ∧ wrapped.forest.parent wrapped.root = none) ∧
      ∃ rule ∈ [replaceAlike wrapTarget, replaceAlike ⟨[]⟩], ∃ template d₁ m,
        overlapping.Refuses rule template d₁ wrapped m := by
  have hrun : overlapping.runAll [replaceAlike wrapTarget, replaceAlike ⟨[]⟩] nested =
      (wrapped, .error (.apply (.invalidRootReplacement 2 0))) := by
    have hfirst : overlapping.run (replaceAlike wrapTarget) nested = (wrapped, .ok ⟨2, 1, 0⟩) :=
      run_of_replaceAll rfl pass_nested
    have hsecond : overlapping.run (replaceAlike ⟨[]⟩) wrapped =
        (wrapped, .error (.apply (.invalidRootReplacement 2 0))) :=
      run_of_pass_error rfl rfl pass_wrapped
    show overlapping.repeatCycles _ nested {} 100 = _
    rw [repeatCycles, cycle, hfirst]
    dsimp only
    rw [cycle, hsecond]
  have hrules : ∀ rule ∈ [replaceAlike wrapTarget, replaceAlike ⟨[]⟩], rule.Templated := by
    simp [templated_replaceAlike]
  obtain ⟨⟨hwf, -, htop⟩, hrefused⟩ :=
    (run_keeps_whole overlapping whole_nested hrules).2 _ _ hrun
  obtain ⟨rule, hrule, template, d₁, m, -, hm, -⟩ := hrefused _ rfl
  exact ⟨hrun, ⟨hwf, htop⟩, rule, hrule, template, d₁, m, hm⟩

end TreeRules.Runner
