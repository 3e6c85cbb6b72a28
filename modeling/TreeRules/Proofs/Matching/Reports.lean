/-
The matches that a search of a subtree reports.

A search stands for the matches that it has still to consider: those of the choice points left at
the node at hand, and then those of the nodes to come with all that lies beneath them.  `Awaits` is
that, step by step as the search takes them up, and the whole search stands for the matches at the
nodes of its subtree in document order.

What is reported of them is a matter of the list alone: the matches that keep clear of those before
them, or all where overlaps are allowed, up to the limit.
-/
import TreeRules.Proofs.Matching.Clear
import TreeRules.Proofs.Matching.Solutions

namespace TreeRules.Query

variable {q : Query} {m m' : Matches} {found : Match} {start : NodeId} {starts : List NodeId}
  {current : Option (NodeId × List Choice)} {choices : List Choice}
  {kept matched rest : List Match} {answer : NodeId → List Match}

/-- Asked again and again, the search reports these matches, and then no more. -/
inductive Reports (q : Query) : Matches → List Match → Prop
  | finished {m : Matches} (h : q.next m = some none) : Reports q m []
  | reported {m m' : Matches} {found : Match} {rest : List Match}
      (h : q.next m = some (some (found, m'))) (hrest : Reports q m' rest) :
      Reports q m (found :: rest)

/-- The machines at the nodes give these matches. -/
def Answers (q : Query) (answer : NodeId → List Match) : Prop :=
  ∀ start, ∃ solutions, (q.searchAt start).Solutions (.resuming Search.initial) solutions ∧
    solutions.map (Match.ofVisits? q.program) = (answer start).map some

/-- The matches that a search with these nodes to come and this node at hand has still to
consider. -/
inductive Awaits (q : Query) :
    List NodeId → Option (NodeId × List Choice) → List Match → Prop
  | finished : Awaits q [] none []
  | start {start : NodeId} {rest : List NodeId} {matched : List Match}
      (hrest : Awaits q (if q.program.isRooted then rest else q.forest.children start ++ rest)
        (some (start, Search.initial)) matched) : Awaits q (start :: rest) none matched
  | exhausted {starts : List NodeId} {start : NodeId} {choices : List Choice}
      {matched : List Match} (h : (q.searchAt start).nextSolution choices = some none)
      (hrest : Awaits q starts none matched) : Awaits q starts (some (start, choices)) matched
  | solution {starts : List NodeId} {start : NodeId} {choices choices' : List Choice}
      {visits : List Visit} {found : Match} {matched : List Match}
      (h : (q.searchAt start).nextSolution choices = some (some (visits, choices')))
      (hfound : Match.ofVisits? q.program visits = some found)
      (hrest : Awaits q starts (some (start, choices')) matched) :
      Awaits q starts (some (start, choices)) (found :: matched)

/-! ### What is reported of the matches considered -/

/-- The matches that are reported, if there is no limit, when those in `kept` have been. -/
def chosen (q : Query) (kept matched : List Match) : List Match :=
  if q.settings.allowOverlap then matched else Match.keepClear q.forest kept matched

theorem chosen_of_no_overlap (h : q.settings.allowOverlap = false) :
    q.chosen kept matched = Match.keepClear q.forest kept matched := by
  unfold chosen
  rw [h]
  rfl

theorem chosen_sublist (q : Query) (kept matched : List Match) :
    (q.chosen kept matched).Sublist matched := by
  unfold chosen
  split
  · exact List.Sublist.refl _
  · exact Match.keepClear_sublist _ _ _

/-- The targets noted are those of the matches reported; where overlaps are allowed they do not
matter. -/
def Claimed (q : Query) (m : Matches) (kept : List Match) : Prop :=
  q.settings.allowOverlap = false → m.claimed = kept.map Match.target

theorem passesOver_eq_false_iff (hf : q.forest.WellFormed) (hclaimed : q.Claimed m kept) :
    q.passesOver m found = false ↔
      q.settings.allowOverlap = true ∨ ∀ k ∈ kept, found.Clear q.forest k := by
  rw [passesOver, Bool.and_eq_false_iff, Bool.not_eq_false']
  refine or_congr_right' fun hallow => ?_
  rw [Bool.not_eq_true] at hallow
  rw [hclaimed hallow, List.any_map, List.any_eq_false]
  refine forall₂_congr fun k _ => ?_
  rw [Bool.not_eq_true, Function.comp_apply, Match.overlaps_eq_false_iff hf]

theorem chosen_cons_of_passesOver (hf : q.forest.WellFormed) (hclaimed : q.Claimed m kept)
    (h : q.passesOver m found = true) : q.chosen kept (found :: rest) = q.chosen kept rest := by
  have hnot := mt (passesOver_eq_false_iff hf hclaimed).mpr (by rw [h]; exact Bool.noConfusion)
  rw [not_or, Bool.not_eq_true] at hnot
  rw [chosen_of_no_overlap hnot.1, chosen_of_no_overlap hnot.1, Match.keepClear, if_neg hnot.2]

theorem chosen_cons_of_not_passesOver (hf : q.forest.WellFormed) (hclaimed : q.Claimed m kept)
    (h : q.passesOver m found = false) :
    q.chosen kept (found :: rest) = found :: q.chosen (found :: kept) rest := by
  unfold chosen
  by_cases hallow : q.settings.allowOverlap = true
  · rw [if_pos hallow, if_pos hallow]
  · rw [if_neg hallow, if_neg hallow, Match.keepClear,
      if_pos (((passesOver_eq_false_iff hf hclaimed).mp h).resolve_left hallow)]

theorem claimed_report (hclaimed : q.Claimed m kept) (found : Match) :
    q.Claimed (q.report m found) (found :: kept) := by
  intro hallow
  rw [List.map_cons, ← hclaimed hallow, report, hallow]
  rfl

/-! ### One call -/

theorem reports_of_next_eq (h : q.next m = q.next m') (hm : q.Reports m' matched) :
    q.Reports m matched := by
  cases hm with
  | finished hm => exact .finished (h.trans hm)
  | reported hm hrest => exact .reported (h.trans hm) hrest

/-- At the limit there is nothing more to report. -/
theorem reports_take (h : m.reported < q.settings.maxMatches →
      q.Reports m (matched.take (q.settings.maxMatches - m.reported))) :
    q.Reports m (matched.take (q.settings.maxMatches - m.reported)) := by
  rcases Nat.lt_or_ge m.reported q.settings.maxMatches with hlimit | hlimit
  · exact h hlimit
  · rw [Nat.sub_eq_zero_of_le hlimit, List.take_zero]
    refine .finished ?_
    rw [next, if_pos hlimit]

theorem next_of_finished (hlimit : m.reported < q.settings.maxMatches) (hcurrent : m.current = none)
    (hstarts : m.starts = []) : q.next m = some none := by
  rw [next, if_neg (Nat.not_le.mpr hlimit), hcurrent, hstarts]

theorem next_of_start (hlimit : m.reported < q.settings.maxMatches) (hcurrent : m.current = none)
    (hstarts : m.starts = start :: starts) : q.next m = q.next (q.startAt m start starts) := by
  rw [next, if_neg (Nat.not_le.mpr hlimit), hcurrent, hstarts]

theorem next_of_exhausted (hlimit : m.reported < q.settings.maxMatches)
    (hcurrent : m.current = some (start, choices))
    (h : (q.searchAt start).nextSolution choices = some none) :
    q.next m = q.next { m with current := none } := by
  rw [next, if_neg (Nat.not_le.mpr hlimit), hcurrent]
  show ((q.searchAt start).nextSolution choices).bind _ = _
  rw [h]
  rfl

theorem next_of_solution (hlimit : m.reported < q.settings.maxMatches)
    (hcurrent : m.current = some (start, choices)) {choices' : List Choice} {visits : List Visit}
    (h : (q.searchAt start).nextSolution choices = some (some (visits, choices')))
    (hfound : Match.ofVisits? q.program visits = some found) :
    q.next m =
      if q.passesOver { m with current := some (start, choices') } found then
        q.next { m with current := some (start, choices') }
      else some (some (found, q.report { m with current := some (start, choices') } found)) := by
  rw [next, if_neg (Nat.not_le.mpr hlimit), hcurrent]
  show ((q.searchAt start).nextSolution choices).bind _ = _
  rw [h]
  dsimp only [Option.bind_some]
  rw [hfound]

/-- **A search reports what is chosen of the matches that it awaits, up to the limit.** -/
theorem reports_of_awaits (hf : q.forest.WellFormed) (h : q.Awaits starts current matched) :
    ∀ (m : Matches) (kept : List Match), m.starts = starts → m.current = current →
      q.Claimed m kept →
      q.Reports m ((q.chosen kept matched).take (q.settings.maxMatches - m.reported)) := by
  induction h with
  | finished =>
      intro m kept hstarts hcurrent _
      refine reports_take fun hlimit => ?_
      have hnil : q.chosen kept [] = [] := by
        unfold chosen
        split <;> rfl
      rw [hnil, List.take_nil]
      exact .finished (next_of_finished hlimit hcurrent hstarts)
  | start _ ih =>
      intro m kept hstarts hcurrent hclaimed
      refine reports_take fun hlimit => ?_
      exact reports_of_next_eq (next_of_start hlimit hcurrent hstarts)
        (ih (q.startAt m _ _) kept rfl rfl hclaimed)
  | exhausted h _ ih =>
      intro m kept hstarts hcurrent hclaimed
      refine reports_take fun hlimit => ?_
      exact reports_of_next_eq (next_of_exhausted hlimit hcurrent h)
        (ih { m with current := none } kept hstarts rfl hclaimed)
  | @solution _ start _ choices' _ found _ h hfound _ ih =>
      intro m kept hstarts hcurrent hclaimed
      refine reports_take fun hlimit => ?_
      have hnext := next_of_solution hlimit hcurrent h hfound
      have hclaimed' : q.Claimed { m with current := some (start, choices') } kept := hclaimed
      cases hpasses : q.passesOver { m with current := some (start, choices') } found with
      | true =>
          rw [hpasses, if_pos rfl] at hnext
          rw [chosen_cons_of_passesOver hf hclaimed' hpasses]
          exact reports_of_next_eq hnext (ih _ kept hstarts rfl hclaimed')
      | false =>
          rw [hpasses, if_neg Bool.false_ne_true] at hnext
          rw [chosen_cons_of_not_passesOver hf hclaimed' hpasses]
          have hleft : q.settings.maxMatches - m.reported =
              (q.settings.maxMatches - (m.reported + 1)) + 1 := by omega
          rw [hleft, List.take_succ_cons]
          exact .reported hnext (ih _ (found :: kept) hstarts rfl (claimed_report hclaimed' found))

/-! ### What a search awaits -/

theorem awaits_of_solutions {machine : Machine} {solutions : List (List Visit)}
    (h : (q.searchAt start).Solutions machine solutions) (hrest : q.Awaits starts none rest) :
    ∀ (choices : List Choice) (matched : List Match), machine = .resuming choices →
      solutions.map (Match.ofVisits? q.program) = matched.map some →
      q.Awaits starts (some (start, choices)) (matched ++ rest) := by
  induction h with
  | exhausted h =>
      rintro choices matched rfl hmatched
      obtain rfl : matched = [] := by
        rw [List.map_nil] at hmatched
        exact List.map_eq_nil_iff.mp hmatched.symm
      exact .exhausted h hrest
  | found h _ ih =>
      rintro choices matched rfl hmatched
      cases matched with
      | nil => simp at hmatched
      | cons found matched =>
          rw [List.map_cons, List.map_cons, List.cons.injEq] at hmatched
          exact .solution h hmatched.1 (ih _ matched rfl hmatched.2)

theorem awaits_of_answers (hanswer : q.Answers answer) (hrest : q.Awaits starts none rest)
    (start : NodeId) :
    q.Awaits starts (some (start, Search.initial)) (answer start ++ rest) := by
  obtain ⟨solutions, hsolutions, hmap⟩ := hanswer start
  exact awaits_of_solutions hsolutions hrest Search.initial (answer start) rfl hmap

/-- A node to come stands for itself and all that lies beneath it. -/
theorem awaits_subtree (hf : q.forest.WellFormed) (hanswer : q.Answers answer)
    (hrooted : q.program.isRooted = false) (n : NodeId) :
    ∀ (starts : List NodeId) (rest : List Match), q.Awaits starts none rest →
      q.Awaits (n :: starts) none ((q.forest.preorder n).flatMap answer ++ rest) := by
  induction n using hf.down_induction with
  | step n ih =>
      intro starts rest hrest
      have hbeneath : ∀ children, children ⊆ q.forest.children n →
          q.Awaits (children ++ starts) none
            ((children.flatMap q.forest.preorder).flatMap answer ++ rest) := by
        intro children
        induction children with
        | nil => intro _; exact hrest
        | cons c children ihc =>
            intro hsub
            rw [List.cons_subset] at hsub
            rw [List.flatMap_cons, List.flatMap_append, List.append_assoc, List.cons_append]
            exact ih c hsub.1 _ _ (ihc hsub.2)
      refine .start ?_
      rw [hrooted, if_neg Bool.false_ne_true, hf.preorder_eq, List.flatMap_cons, List.append_assoc]
      exact awaits_of_answers hanswer (hbeneath _ (List.Subset.refl _)) n

/-- A rooted program finds nothing from a node beneath the one where the search started. -/
theorem answer_of_isRooted (hanswer : q.Answers answer) (hrooted : q.program.isRooted = true)
    (hstart : start ≠ q.scanRoot) : answer start = [] := by
  obtain ⟨solutions, hsolutions, hmap⟩ := hanswer start
  have hnone := Search.solutions_of_isRooted (s := q.searchAt start) hrooted hstart
  rw [hsolutions.unique hnone, List.map_nil] at hmap
  exact List.map_eq_nil_iff.mp hmap.symm

/-- **The whole search awaits the matches at each node of its subtree**, also where it looks no
further than its root. -/
theorem awaits_begin (hf : q.forest.WellFormed) (hanswer : q.Answers answer) :
    q.Awaits [q.scanRoot] none ((q.forest.preorder q.scanRoot).flatMap answer) := by
  cases hrooted : q.program.isRooted with
  | false =>
      have := awaits_subtree hf hanswer hrooted q.scanRoot [] [] .finished
      rwa [List.append_nil] at this
  | true =>
      have hbeneath : ∀ c ∈ q.forest.children q.scanRoot, ∀ n ∈ q.forest.preorder c,
          answer n = [] := by
        intro c hc n hn
        refine answer_of_isRooted hanswer hrooted ?_
        rintro rfl
        have hup := (hf.parent_iff c q.scanRoot).mpr hc
        exact hf.acyclic q.scanRoot
          (Relation.TransGen.tail' (hf.mem_preorder_iff.mp hn) hup)
      have hnil : ((q.forest.children q.scanRoot).flatMap q.forest.preorder).flatMap answer =
          [] := by
        rw [List.flatMap_assoc, List.flatMap_eq_nil_iff]
        intro c hc
        rw [List.flatMap_eq_nil_iff]
        exact hbeneath c hc
      have := awaits_of_answers hanswer .finished q.scanRoot
      refine .start ?_
      rw [hrooted, if_pos rfl, hf.preorder_eq, List.flatMap_cons, hnil]
      exact this

/-- **What a search reports.** -/
theorem reports_begin (hf : q.forest.WellFormed) (hanswer : q.Answers answer) :
    q.Reports q.begin ((q.chosen [] ((q.forest.preorder q.scanRoot).flatMap answer)).take
      q.settings.maxMatches) :=
  reports_of_awaits hf (awaits_begin hf hanswer) q.begin [] rfl rfl fun _ => rfl

theorem toList_remaining (h : q.Reports m matched) :
    ∀ left, matched.length ≤ left → (q.remaining left m).toList = matched := by
  induction h with
  | finished h =>
      intro left _
      cases left with
      | zero => rfl
      | succ left => rw [remaining, h, LazyList.toList_nil]
  | reported h _ ih =>
      intro left hle
      cases left with
      | zero => simp at hle
      | succ left =>
          rw [List.length_cons, Nat.succ_le_succ_iff] at hle
          rw [remaining, h, LazyList.toList_cons, ih left hle]

end TreeRules.Query
