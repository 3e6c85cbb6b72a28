/-
What searching for a pattern promises.

It always ends, whatever the pattern repeats and wherever it climbs, and what it reports is told by
the matches at the nodes of the subtree.  Both come of the machines giving exactly the results of
the pattern, of which there are only so many.
-/
import TreeRules.Proofs.Matching.Reports

namespace TreeRules

/-- The nodes that a match names are nodes of the forest. -/
structure Match.InForest (m : Match) (f : Forest) : Prop where
  start : m.start < f.size
  target : m.target < f.size
  consumed : ∀ n ∈ m.consumed, n < f.size
  captured : ∀ capture ∈ m.captures, ∀ n ∈ capture.2.nodes, n < f.size

/-- They are so still when nodes have been added. -/
theorem Match.InForest.mono {m : Match} {f g : Forest} (hm : m.InForest f)
    (hle : f.size ≤ g.size) : m.InForest g where
  start := Nat.lt_of_lt_of_le hm.start hle
  target := Nat.lt_of_lt_of_le hm.target hle
  consumed := by
    intro n hn
    exact Nat.lt_of_lt_of_le (hm.consumed n hn) hle
  captured := by
    intro capture hcapture n hn
    exact Nat.lt_of_lt_of_le (hm.captured capture hcapture n hn) hle

namespace CompiledPattern

variable {text : String} {settings limits : Settings} {p : CompiledPattern} {f : Forest}
  {predicates : Predicates} {scanRoot : NodeId} {k m : Match}

/-- The matches of a pattern at a node. -/
def matchesAt (p : CompiledPattern) (f : Forest) (predicates : Predicates) (scanRoot : NodeId)
    (start : NodeId) : List Match :=
  Scene.matches ⟨f, predicates, scanRoot, start⟩ p.pattern

/-- The matches of a pattern at all nodes of a subtree. -/
def allMatches (p : CompiledPattern) (f : Forest) (predicates : Predicates) (scanRoot : NodeId) :
    List Match :=
  (f.preorder scanRoot).flatMap (p.matchesAt f predicates scanRoot)

theorem answers_query (h : read text settings = .ok p) (hf : f.WellFormed)
    (predicates : Predicates) (limits : Settings) (scanRoot : NodeId) :
    (p.query f predicates limits scanRoot).Answers (p.matchesAt f predicates scanRoot) := by
  intro start
  refine ⟨_, solutions_search h ⟨f, predicates, scanRoot, start⟩ hf, ?_⟩
  rw [matchesAt, ← Scene.map_ofLog?_results, List.map_map]
  exact List.map_congr_left fun log hlog => ofVisits?_search h hf hlog

theorem reports_query (h : read text settings = .ok p) (hf : f.WellFormed)
    (predicates : Predicates) (limits : Settings) (scanRoot : NodeId) :
    (p.query f predicates limits scanRoot).Reports (p.query f predicates limits scanRoot).begin
      (((p.query f predicates limits scanRoot).chosen []
        (p.allMatches f predicates scanRoot)).take limits.maxMatches) :=
  Query.reports_begin hf (answers_query h hf predicates limits scanRoot)

theorem findAll_eq_take (h : read text settings = .ok p) (hf : f.WellFormed) :
    p.findAll f predicates limits scanRoot =
      ((p.query f predicates limits scanRoot).chosen []
        (p.allMatches f predicates scanRoot)).take limits.maxMatches :=
  Query.toList_remaining (reports_query h hf predicates limits scanRoot) limits.maxMatches
    (List.length_take_le _ _)

/-- What is found is a match at some node of the subtree. -/
theorem mem_allMatches_of_mem_findAll (h : read text settings = .ok p) (hf : f.WellFormed)
    (hm : m ∈ p.findAll f predicates limits scanRoot) : m ∈ p.allMatches f predicates scanRoot := by
  rw [findAll_eq_take h hf] at hm
  exact (Query.chosen_sublist _ _ _).subset (List.mem_of_mem_take hm)

/-- A match at a node is the reading of a result there. -/
theorem exists_result_of_mem_allMatches (hm : m ∈ p.allMatches f predicates scanRoot) :
    ∃ start ∈ f.preorder scanRoot,
      ∃ log ∈ Scene.results ⟨f, predicates, scanRoot, start⟩ p.pattern,
        Match.ofLog? p.pattern.captureSlots log = some m := by
  obtain ⟨start, hstart, hm⟩ := List.mem_flatMap.mp hm
  obtain ⟨log, hlog, hread⟩ := List.mem_filterMap.mp hm
  exact ⟨start, hstart, log, hlog, hread⟩

/-- The target of a match is a node that it consumes. -/
theorem target_mem_consumed (hm : m ∈ p.allMatches f predicates scanRoot) :
    m.target ∈ m.consumed := by
  obtain ⟨_, -, log, -, hread⟩ := exists_result_of_mem_allMatches hm
  exact Match.target_mem_of_ofLog? hread

/-- What a match names are nodes of the forest. -/
theorem inForest_of_mem_allMatches (hf : f.WellFormed) (hroot : scanRoot < f.size)
    (hm : m ∈ p.allMatches f predicates scanRoot) : m.InForest f := by
  obtain ⟨start, hstart, log, hlog, hread⟩ := exists_result_of_mem_allMatches hm
  have hconsumed : ∀ n ∈ m.consumed, n < f.size := by
    obtain ⟨w, hw, rfl⟩ := Scene.sound_of_mem_results hf hlog
    intro n hn
    rw [(Match.ofLog?_eq_some hread).1] at hn
    obtain ⟨c, hc, rfl⟩ := List.mem_map.mp hn
    rcases hw.inForest c (List.mem_reverse.mp hc) with heq | hlt
    · rw [heq]
      exact Forest.lt_size_of_within hroot (hf.mem_preorder_iff.mp hstart)
    · exact hlt
  exact ⟨hconsumed _ (Match.start_mem_of_ofLog? hread),
    hconsumed _ (Match.target_mem_of_ofLog? hread), hconsumed, fun capture hcapture n hn =>
      hconsumed n (Match.captured_subset_of_ofLog? hread hcapture hn)⟩

/-- A match consumes nodes of the tree in which it is looked for, wherever it climbs. -/
theorem within_of_mem_consumed (hf : f.WellFormed) (htop : f.parent scanRoot = none)
    (hm : m ∈ p.allMatches f predicates scanRoot) {n : NodeId} (hn : n ∈ m.consumed) :
    f.Within n scanRoot := by
  obtain ⟨start, hstart, log, hlog, hread⟩ := exists_result_of_mem_allMatches hm
  obtain ⟨w, hleads, rfl⟩ := Scene.leads_of_mem_results hlog
  have hin := hleads.inTree hf htop (hf.mem_preorder_iff.mp hstart)
    ⟨fun n hn => absurd hn (by simp), fun c hc => absurd hc (by simp)⟩
  rw [(Match.ofLog?_eq_some hread).1] at hn
  obtain ⟨c, hc, rfl⟩ := List.mem_map.mp hn
  exact hin.log c (List.mem_reverse.mp hc)

/-- **Matches that are found keep clear of one another**, unless overlaps are allowed. -/
theorem pairwise_findAll (h : read text settings = .ok p) (hf : f.WellFormed)
    (hoverlap : limits.allowOverlap = false) :
    (p.findAll f predicates limits scanRoot).Pairwise fun k m => m.Clear f k := by
  rw [findAll_eq_take h hf, Query.chosen_of_no_overlap hoverlap]
  exact (Match.pairwise_keepClear f [] _).sublist (List.take_sublist _ _)

/-! ### Searching ends -/

/-- **Searching always ends.**  From whatever node, a machine makes finitely many steps however often
it is asked, so each call comes back, and after finitely many solutions one says that there are no
more.  Whatever the limits, a search of the subtree comes back from each call and reports no more
matches than some number that does not depend on them. -/
theorem search_ends (h : read text settings = .ok p) (hf : f.WellFormed) (predicates : Predicates)
    (scanRoot : NodeId) :
    (∀ start,
      (p.search ⟨f, predicates, scanRoot, start⟩).Halts (.resuming Search.initial) ∧
      ∃ solutions, (p.search ⟨f, predicates, scanRoot, start⟩).Solutions
        (.resuming Search.initial) solutions) ∧
    ∃ most, ∀ limits : Settings, ∃ matched,
      (p.query f predicates limits scanRoot).Reports (p.query f predicates limits scanRoot).begin
        matched ∧ matched.length ≤ most := by
  refine ⟨fun start => ?_, (p.allMatches f predicates scanRoot).length, fun limits => ?_⟩
  · have hsolutions := solutions_search h ⟨f, predicates, scanRoot, start⟩ hf
    exact ⟨hsolutions.halts, _, hsolutions⟩
  · refine ⟨_, reports_query h hf predicates limits scanRoot, ?_⟩
    exact ((List.take_sublist _ _).trans (Query.chosen_sublist _ _ _)).length_le

/-- It ends although a step to any sibling leads back. -/
theorem search_ends_threeAlike :
    (∀ start,
      (alikeSiblings.search ⟨threeAlike.forest, {}, 0, start⟩).Halts (.resuming Search.initial) ∧
      ∃ solutions, (alikeSiblings.search ⟨threeAlike.forest, {}, 0, start⟩).Solutions
        (.resuming Search.initial) solutions) ∧
    ∃ most, ∀ limits : Settings, ∃ matched,
      (alikeSiblings.query threeAlike.forest {} limits 0).Reports
        (alikeSiblings.query threeAlike.forest {} limits 0).begin matched ∧
      matched.length ≤ most :=
  search_ends read_alikeSiblings wellFormed_threeAlike {} 0

/-! ### What is found -/

/-- **What a search reports** is told by the matches that the machines give at the nodes of the
subtree in document order: all of them where overlaps are allowed, and otherwise those that keep
clear of the ones kept before, in both cases up to the limit.  So without overlaps no node is
replaced twice, and no match consumes what an earlier one replaces. -/
theorem findAll_eq_keepClear (h : read text settings = .ok p) (hf : f.WellFormed)
    (predicates : Predicates) (limits : Settings) (scanRoot : NodeId) :
    ∃ answer : NodeId → List Match,
      (∀ start, ∃ solutions,
        (p.search ⟨f, predicates, scanRoot, start⟩).Solutions (.resuming Search.initial)
          solutions ∧
        solutions.map (Match.ofVisits? p.program) = (answer start).map some) ∧
      p.findAll f predicates limits scanRoot =
        (if limits.allowOverlap then (f.preorder scanRoot).flatMap answer
          else Match.keepClear f [] ((f.preorder scanRoot).flatMap answer)).take
            limits.maxMatches ∧
      (limits.allowOverlap = false →
        (p.findAll f predicates limits scanRoot).Pairwise fun k m =>
          (f.preorder k.target).Disjoint (f.preorder m.target) ∧
            ∀ n ∈ m.consumed, n ∉ f.preorder k.target) := by
  refine ⟨_, answers_query h hf predicates limits scanRoot, findAll_eq_take h hf, ?_⟩
  intro hoverlap
  refine (pairwise_findAll h hf hoverlap).imp_of_mem fun _ hm hclear => ⟨?_, hclear.2⟩
  exact hclear.disjoint hf (target_mem_consumed (mem_allMatches_of_mem_findAll h hf hm))

/-- Of three alike siblings none is replaced twice. -/
theorem findAll_eq_keepClear_threeAlike :
    (alikeSiblings.findAll threeAlike.forest {} {} 0).Pairwise fun k m =>
      (threeAlike.forest.preorder k.target).Disjoint (threeAlike.forest.preorder m.target) ∧
        ∀ n ∈ m.consumed, n ∉ threeAlike.forest.preorder k.target := by
  obtain ⟨_, -, -, hpairwise⟩ :=
    findAll_eq_keepClear read_alikeSiblings wellFormed_threeAlike {} {} 0
  exact hpairwise rfl

theorem targets_findAll_threeAlike :
    (alikeSiblings.findAll threeAlike.forest {} {} 0).map Match.target = [3, 2, 1] := by
  rw [findAll_eq_take read_alikeSiblings wellFormed_threeAlike]
  decide +kernel

/-- What is found among three alike siblings. -/
def threeAlikeMatches : List Match :=
  [⟨1, 3, [1, 2, 3], [("x", .single 1)]⟩, ⟨1, 2, [1, 2], [("x", .single 1)]⟩,
    ⟨1, 1, [1], [("x", .single 1)]⟩]

theorem findAll_threeAlike :
    alikeSiblings.findAll threeAlike.forest {} {} threeAlike.root = threeAlikeMatches := by
  rw [findAll_eq_take read_alikeSiblings wellFormed_threeAlike]
  decide +kernel

end CompiledPattern

end TreeRules
