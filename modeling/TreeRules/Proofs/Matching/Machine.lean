/-
What a machine finds.

`Solutions` says what a machine answers when it is asked for one solution after another, up to the
answer that there is none.  It can only hold where each of these calls comes back, so it also says
that the machine halts.

A thread `Yields` some solutions if the machine that follows it finds these and then those of the
choice points beneath.  Each instruction has one lemma, which gives what a thread yields there in
terms of what it yields where the instruction leads.  None of them mentions the stack.
-/
import TreeRules.Matching.Machine
import TreeRules.Proofs.Forest.WellFormed

namespace TreeRules

namespace Search

variable {s : Search} {m m' : Machine} {t : Thread} {choices : List Choice}
  {solutions rest : List (List Visit)}

/-- Asked again and again, the machine gives these solutions in order, and then no more. -/
inductive Solutions (s : Search) : Machine → List (List Visit) → Prop
  | exhausted {m : Machine} (h : s.run m = some none) : Solutions s m []
  | found {m : Machine} {solution : List Visit} {choices : List Choice}
      {rest : List (List Visit)} (h : s.run m = some (some (solution, choices)))
      (hrest : Solutions s (.resuming choices) rest) : Solutions s m (solution :: rest)

/-- A machine does not answer in two ways. -/
theorem Solutions.unique {l l' : List (List Visit)} (h : s.Solutions m l)
    (h' : s.Solutions m l') : l = l' := by
  induction h generalizing l' with
  | exhausted h =>
      cases h' with
      | exhausted => rfl
      | found h₁ =>
          rw [h] at h₁
          exact absurd h₁ (by simp)
  | found h _ ih =>
      cases h' with
      | exhausted h₁ =>
          rw [h] at h₁
          exact absurd h₁ (by simp)
      | found h₁ hrest₁ =>
          rw [h, Option.some.injEq, Option.some.injEq, Prod.mk.injEq] at h₁
          obtain ⟨rfl, rfl⟩ := h₁
          rw [ih hrest₁]

/-! ### One step -/

theorem run_of_running (h : s.step m = .running m') : s.run m = s.run m' := by
  rw [run, h]

theorem solutions_of_running (h : s.step m = .running m') (hm : s.Solutions m' solutions) :
    s.Solutions m solutions := by
  cases hm with
  | exhausted hm => exact .exhausted ((run_of_running h).trans hm)
  | found hm hrest => exact .found ((run_of_running h).trans hm) hrest

theorem solutions_of_found {solution : List Visit} (h : s.step m = .found solution choices)
    (hrest : s.Solutions (.resuming choices) rest) : s.Solutions m (solution :: rest) := by
  refine .found ?_ hrest
  rw [run, h]

theorem solutions_resuming_nil (s : Search) : s.Solutions (.resuming []) [] := by
  refine .exhausted ?_
  rw [run]
  rfl

/-! ### Halting -/

/-- One step, where a machine that has found a solution goes on to the next one. -/
inductive Moves (s : Search) : Machine → Machine → Prop
  | running {m m' : Machine} (h : s.step m = .running m') : Moves s m m'
  | found {m : Machine} {solution : List Visit} {choices : List Choice}
      (h : s.step m = .found solution choices) : Moves s m (.resuming choices)

/-- However often it is asked, the machine makes finitely many steps. -/
def Halts (s : Search) (m : Machine) : Prop := Acc (fun m' m => s.Moves m m') m

theorem halts_of_running (h : s.step m = .running m') (hm : s.Halts m') : s.Halts m := by
  refine Acc.intro m fun next hnext => ?_
  cases hnext with
  | running h₁ =>
      rw [h, Progress.running.injEq] at h₁
      exact h₁ ▸ hm
  | found h₁ =>
      rw [h] at h₁
      exact Progress.noConfusion h₁

theorem halts_of_found {solution : List Visit} (h : s.step m = .found solution choices)
    (hm : s.Halts (.resuming choices)) : s.Halts m := by
  refine Acc.intro m fun next hnext => ?_
  cases hnext with
  | running h₁ =>
      rw [h] at h₁
      exact Progress.noConfusion h₁
  | found h₁ =>
      rw [h, Progress.found.injEq] at h₁
      exact h₁.2 ▸ hm

theorem halts_of_exhausted (h : s.step m = .exhausted) : s.Halts m := by
  refine Acc.intro m fun next hnext => ?_
  cases hnext with
  | running h₁ =>
      rw [h] at h₁
      exact Progress.noConfusion h₁
  | found h₁ =>
      rw [h] at h₁
      exact Progress.noConfusion h₁

/-- A call that comes back has made finitely many steps: if the machine that it leaves halts, so
does the one that it was made to. -/
theorem halts_of_run {answer : Option (List Visit × List Choice)} (h : s.run m = some answer)
    (hrest : ∀ solution choices, answer = some (solution, choices) →
      s.Halts (.resuming choices)) : s.Halts m := by
  refine run.partial_correctness s (fun m answer =>
    (∀ solution choices, answer = some (solution, choices) → s.Halts (.resuming choices)) →
      s.Halts m) ?_ m answer h hrest
  intro run ih m answer h hrest
  split at h
  · rename_i m' hstep
    exact halts_of_running hstep (ih m' answer h hrest)
  · rename_i solution choices hstep
    exact halts_of_found hstep (hrest solution choices (Option.some.inj h).symm)
  · rename_i hstep
    exact halts_of_exhausted hstep

/-- **A machine that answers all calls halts.** -/
theorem Solutions.halts (h : s.Solutions m solutions) : s.Halts m := by
  induction h with
  | exhausted h => exact halts_of_run h (by intro _ _ hc; exact absurd hc (by simp))
  | found h _ ih =>
      refine halts_of_run h fun solution choices heq => ?_
      rw [Option.some.injEq, Prod.mk.injEq] at heq
      exact heq.2 ▸ ih

/-! ### One instruction -/

/-- Followed to its end, the thread gives these solutions, and then the machine goes on with the
choice points beneath it. -/
def Yields (s : Search) (t : Thread) (solutions : List (List Visit)) : Prop :=
  ∀ choices rest, s.Solutions (.resuming choices) rest →
    s.Solutions (.following t choices) (solutions ++ rest)

theorem yields_check {anchor : Anchor} (hcode : s.program.at? t.place = some (.check anchor))
    (h : s.holds anchor t.here = true → s.Yields { t with place := t.place + 1 } solutions) :
    s.Yields t (if s.holds anchor t.here then solutions else []) := by
  intro choices rest hrest
  by_cases hholds : s.holds anchor t.here = true
  · rw [if_pos hholds]
    refine solutions_of_running ?_ (h hholds choices rest hrest)
    rw [step, follow, hcode]
    exact if_pos hholds
  · rw [if_neg hholds]
    refine solutions_of_running ?_ hrest
    rw [step, follow, hcode]
    exact if_neg hholds

/-- A program that is rooted finds nothing from a node where the search did not start. -/
theorem solutions_of_isRooted (hrooted : s.program.isRooted = true)
    (hstart : s.start ≠ s.scanRoot) : s.Solutions (.resuming initial) [] := by
  have hcode : s.program.at? 0 = some (.check .root) := by
    rw [Program.isRooted, beq_iff_eq] at hrooted
    exact hrooted
  have hfails : s.holds .root none = false := by
    rw [holds, beq_eq_false_iff_ne]
    exact hstart
  have hyields : s.Yields ⟨0, none, []⟩ (if s.holds .root none then [] else []) :=
    yields_check (t := ⟨0, none, []⟩) hcode fun hholds => by
      rw [hfails] at hholds
      exact Bool.noConfusion hholds
  rw [hfails] at hyields
  exact solutions_of_running rfl (hyields [] [] (solutions_resuming_nil s))

theorem yields_parent (yielded : NodeId → List (List Visit))
    (hcode : s.program.at? t.place = some .parent)
    (h : ∀ p, t.here.bind s.forest.parent = some p →
      s.Yields { t with place := t.place + 1, here := some p } (yielded p)) :
    s.Yields t ((t.here.bind s.forest.parent).toList.flatMap yielded) := by
  intro choices rest hrest
  cases hp : t.here.bind s.forest.parent with
  | none =>
      refine solutions_of_running ?_ hrest
      rw [step, follow, hcode]
      dsimp only
      rw [hp]
  | some p =>
      rw [Option.toList_some, List.flatMap_singleton]
      refine solutions_of_running ?_ (h p hp choices rest hrest)
      rw [step, follow, hcode]
      dsimp only
      rw [hp]

theorem yields_jump {target : Nat} (hcode : s.program.at? t.place = some (.jump target))
    (h : s.Yields { t with place := target } solutions) : s.Yields t solutions := by
  intro choices rest hrest
  refine solutions_of_running ?_ (h choices rest hrest)
  rw [step, follow, hcode]

theorem yields_split {first second : Nat} {better worse : List (List Visit)}
    (hcode : s.program.at? t.place = some (.split first second))
    (hfirst : s.Yields { t with place := first } better)
    (hsecond : s.Yields { t with place := second } worse) : s.Yields t (better ++ worse) := by
  intro choices rest hrest
  have hbranch : s.Solutions (.resuming (.branch { t with place := second } :: choices))
      (worse ++ rest) := solutions_of_running rfl (hsecond choices rest hrest)
  rw [List.append_assoc]
  refine solutions_of_running ?_ (hfirst _ _ hbranch)
  rw [step, follow, hcode]

theorem yields_done (hcode : s.program.at? t.place = some .done) :
    s.Yields t (if t.trail.isEmpty then [] else [t.trail.reverse]) := by
  intro choices rest hrest
  by_cases hempty : t.trail.isEmpty = true
  · rw [if_pos hempty]
    refine solutions_of_running ?_ hrest
    rw [step, follow, hcode]
    exact if_pos hempty
  · rw [if_neg hempty]
    refine solutions_of_found ?_ hrest
    rw [step, follow, hcode]
    exact if_neg hempty

end Search

/-! ### Candidates -/

namespace Candidates

variable {f : Forest} {c c' : Candidates} {n : NodeId}

/-- The nodes that will be handed out. -/
def all (f : Forest) (c : Candidates) : List NodeId :=
  if c.descend then c.pending.flatMap f.preorder else c.pending

theorem all_of_next?_none (h : c.next? f = none) : c.all f = [] := by
  unfold next? at h
  split at h
  · rename_i hnil
    unfold all
    rw [hnil]
    split <;> rfl
  · simp at h

theorem all_of_next?_some (hf : f.WellFormed) (h : c.next? f = some (n, c')) :
    c.all f = n :: c'.all f := by
  unfold next? at h
  split at h
  · simp at h
  · rename_i m rest hcons
    rw [Option.some.injEq, Prod.mk.injEq] at h
    obtain ⟨rfl, rfl⟩ := h
    unfold all
    rw [hcons]
    cases hd : c.descend with
    | false => simp
    | true =>
        rw [if_pos rfl, List.flatMap_cons, hf.preorder_eq m]
        simp

end Candidates

namespace Search

variable {s : Search} {t : Thread}

/-- **A choice point hands out its candidates one after another:** for each that is accepted, the
thread that consumes it is followed to its end. -/
theorem solutions_among (hf : s.forest.WellFormed) {place : Nat} {axis : Axis} {test : NodeTest}
    {slots : List Nat} {trail : List Visit} {yielded : NodeId → List (List Visit)}
    (hcode : s.program.at? place = some (.find axis test slots)) {choices : List Choice}
    {rest : List (List Visit)} (hrest : s.Solutions (.resuming choices) rest) :
    ∀ (nodes : List NodeId) (c : Candidates), c.all s.forest = nodes →
      (∀ n ∈ nodes.filter (s.accepts test trail),
        s.Yields ⟨place + 1, some n, ⟨n, slots⟩ :: trail⟩ (yielded n)) →
      s.Solutions (.resuming (.among place trail c :: choices))
        ((nodes.filter (s.accepts test trail)).flatMap yielded ++ rest) := by
  intro nodes
  induction nodes with
  | nil =>
      intro c hc _
      have hnone : c.next? s.forest = none := by
        cases hn : c.next? s.forest with
        | none => rfl
        | some nc =>
            rw [Candidates.all_of_next?_some hf hn] at hc
            exact absurd hc (by simp)
      refine solutions_of_running ?_ hrest
      rw [step, resume, hcode, hnone]
  | cons n nodes ih =>
      intro c hc h
      obtain ⟨c', hnext, hc'⟩ : ∃ c', c.next? s.forest = some (n, c') ∧
          c'.all s.forest = nodes := by
        cases hn : c.next? s.forest with
        | none =>
            rw [Candidates.all_of_next?_none hn] at hc
            exact absurd hc (by simp)
        | some nc =>
            rw [Candidates.all_of_next?_some hf hn, List.cons.injEq] at hc
            exact ⟨nc.2, by rw [← hc.1], hc.2⟩
      by_cases haccepts : s.accepts test trail n = true
      · rw [List.filter_cons_of_pos haccepts] at h ⊢
        have hothers := ih c' hc' fun n hn => h n (List.mem_cons_of_mem _ hn)
        rw [List.flatMap_cons, List.append_assoc]
        refine solutions_of_running ?_ (h n List.mem_cons_self _ _ hothers)
        rw [step, resume, hcode, hnext]
        exact if_pos haccepts
      · rw [List.filter_cons_of_neg haccepts] at h ⊢
        refine solutions_of_running ?_ (ih c' hc' h)
        rw [step, resume, hcode, hnext]
        exact if_neg haccepts

theorem yields_find (hf : s.forest.WellFormed) {axis : Axis} {test : NodeTest} {slots : List Nat}
    (yielded : NodeId → List (List Visit))
    (hcode : s.program.at? t.place = some (.find axis test slots))
    (h : ∀ n ∈ ((s.candidates axis t.here).all s.forest).filter (s.accepts test t.trail),
      s.Yields ⟨t.place + 1, some n, ⟨n, slots⟩ :: t.trail⟩ (yielded n)) :
    s.Yields t ((((s.candidates axis t.here).all s.forest).filter
      (s.accepts test t.trail)).flatMap yielded) := by
  intro choices rest hrest
  refine solutions_of_running ?_ (solutions_among hf hcode hrest _ _ rfl h)
  rw [step, follow, hcode]

end Search

end TreeRules
