/-
What a machine gives that has done nothing yet.

The program of a pattern is its code and then `done`, so there is a solution for each way on which
the pattern continues the empty one, unless no node is consumed on it.  A solution records nodes in
slots, and a way captures them under names.  They are read as the same match, since every name has
one slot.
-/
import Mathlib
import TreeRules.Proofs.Forest.Keeps
import TreeRules.Proofs.Matching.Code

namespace TreeRules

namespace Match

/-- The nodes consumed under a name, once for each time they are. -/
def consumedUnder (name : String) (log : List Consumed) : List NodeId :=
  log.flatMap fun c => (c.names.filter (· == name)).map fun _ => c.node

/-- The captures that bind a node, in the order of their names. -/
def capturesOf (slots : List CaptureSlot) (log : List Consumed) : List (String × Captured) :=
  let bound := slots.filterMap fun slot =>
    (captured? slot.kind (consumedUnder slot.name log)).map (slot.name, ·)
  bound.foldr insertByName []

/-- The match in which these nodes are consumed, in order; there is none without a node. -/
def ofLog? (slots : List CaptureSlot) (log : List Consumed) : Option Match := do
  return {
    start := (← log.head?).node
    target := (← log.getLast?).node
    consumed := log.map (·.node)
    captures := capturesOf slots log }

end Match

/-- The matches of a pattern that begin at the start, the preferred ones first. -/
def Scene.matches (s : Scene) (p : Pattern) : List Match :=
  (s.results p).filterMap (Match.ofLog? p.captureSlots)

/-! ### Slots and names -/

namespace Match

variable {slots : List CaptureSlot} {log : List Consumed}

/-- What is recorded in a slot is what is consumed under its name. -/
theorem recordedIn_visits (hslots : (Pattern.slotNames slots).Nodup)
    (hlog : ∀ c ∈ log, c.names ⊆ Pattern.slotNames slots) {slot : CaptureSlot} {i : Nat}
    (hi : slots[i]? = some slot) :
    recordedIn i (log.map (Consumed.visit (Pattern.slotNames slots))) =
      consumedUnder slot.name log := by
  rw [recordedIn, consumedUnder, List.flatMap_map]
  refine List.flatMap_congr fun c hc => ?_
  have hname : (Pattern.slotNames slots)[i]? = some slot.name := by
    rw [Pattern.slotNames, List.getElem?_map, hi]
    rfl
  obtain ⟨hlt, hget⟩ := List.getElem?_eq_some_iff.mp hname
  have hidx : (Pattern.slotNames slots).idxOf slot.name = i := by
    rw [← hget]
    exact hslots.idxOf_getElem i hlt
  have hsame : c.names.filter (fun name => (Pattern.slotNames slots).idxOf name == i) =
      c.names.filter (· == slot.name) := by
    refine List.filter_congr fun name hmem => ?_
    rw [Bool.eq_iff_iff, beq_iff_eq, beq_iff_eq, ← hidx]
    exact List.idxOf_inj (hlog c hc hmem)
  have hfilter : (c.visit (Pattern.slotNames slots)).slots.filter (· == i) =
      (c.names.filter (· == slot.name)).map (Pattern.slotNames slots).idxOf := by
    rw [Consumed.visit, List.filter_map, ← hsame]
    rfl
  rw [hfilter, List.map_map]
  rfl

theorem captureNodes_visits (hslots : (Pattern.slotNames slots).Nodup)
    (hlog : ∀ c ∈ log, c.names ⊆ Pattern.slotNames slots) :
    captureNodes slots (log.map (Consumed.visit (Pattern.slotNames slots))) =
      capturesOf slots log := by
  unfold captureNodes capturesOf
  dsimp only
  congr 1
  conv_rhs => rw [← List.zipIdx_map_fst 0 slots, List.filterMap_map]
  refine List.filterMap_congr ?_
  rintro ⟨slot, i⟩ hmem
  dsimp only [Function.comp_apply]
  rw [recordedIn_visits hslots hlog (List.mem_zipIdx_iff_getElem?.mp hmem)]

/-- **A solution and the way that it stands for are read as the same match.** -/
theorem ofVisits?_visits (p : Pattern)
    (hlog : ∀ c ∈ log, c.names ⊆ Pattern.slotNames p.captureSlots) :
    ofVisits? p.compile (log.map (Consumed.visit (Pattern.slotNames p.captureSlots))) =
      ofLog? p.captureSlots log := by
  have hcaptures : captureNodes p.compile.captures
      (log.map (Consumed.visit (Pattern.slotNames p.captureSlots))) =
      capturesOf p.captureSlots log :=
    captureNodes_visits (Pattern.nodup_captureSlots p) hlog
  rw [ofVisits?, ofLog?, hcaptures, List.head?_map, List.getLast?_map, List.map_map]
  cases log.head? with
  | none => rfl
  | some first =>
      cases log.getLast? with
      | none => rfl
      | some last => rfl

theorem exists_of_ofLog? {m : Match} (h : ofLog? slots log = some m) :
    ∃ first last, log.head? = some first ∧ log.getLast? = some last ∧
      m = ⟨first.node, last.node, log.map (·.node), capturesOf slots log⟩ := by
  rw [ofLog?, Option.bind_eq_bind, Option.bind_eq_some_iff] at h
  obtain ⟨first, hfirst, h⟩ := h
  rw [Option.bind_eq_some_iff] at h
  obtain ⟨last, hlast, h⟩ := h
  exact ⟨first, last, hfirst, hlast, (Option.some.inj h).symm⟩

theorem ofLog?_eq_some {m : Match} (h : ofLog? slots log = some m) :
    m.consumed = log.map (·.node) ∧ ∃ last, log.getLast? = some last ∧ m.target = last.node := by
  obtain ⟨first, last, -, hlast, rfl⟩ := exists_of_ofLog? h
  exact ⟨rfl, last, hlast, rfl⟩

theorem target_mem_of_ofLog? {m : Match} (h : ofLog? slots log = some m) :
    m.target ∈ m.consumed := by
  obtain ⟨hconsumed, last, hlast, htarget⟩ := ofLog?_eq_some h
  rw [hconsumed, htarget]
  exact List.mem_map_of_mem (List.mem_of_getLast? hlast)

theorem start_mem_of_ofLog? {m : Match} (h : ofLog? slots log = some m) :
    m.start ∈ m.consumed := by
  obtain ⟨first, last, hfirst, -, rfl⟩ := exists_of_ofLog? h
  exact List.mem_map_of_mem (List.mem_of_head? hfirst)

theorem mem_of_mem_insertByName {capture other : String × Captured}
    {others : List (String × Captured)} (h : other ∈ insertByName capture others) :
    other = capture ∨ other ∈ others := by
  induction others with
  | nil => exact Or.inl (List.mem_singleton.mp h)
  | cons first others ih =>
      rw [insertByName] at h
      split at h
      · exact List.mem_cons.mp h
      · rcases List.mem_cons.mp h with rfl | h
        · exact Or.inr List.mem_cons_self
        · exact (ih h).imp_right (List.mem_cons_of_mem first)

theorem mem_of_mem_foldr_insertByName {capture : String × Captured}
    {bound : List (String × Captured)} (h : capture ∈ bound.foldr insertByName []) :
    capture ∈ bound := by
  induction bound with
  | nil => exact h
  | cons first bound ih =>
      rcases mem_of_mem_insertByName h with rfl | h
      · exact List.mem_cons_self
      · exact List.mem_cons_of_mem first (ih h)

theorem nodes_of_captured? {kind : CaptureKind} {nodes : List NodeId} {captured : Captured}
    (h : captured? kind nodes = some captured) : captured.nodes = nodes := by
  unfold captured? at h
  split at h
  · cases h
  · obtain rfl := Option.some.inj h
    rfl
  · obtain rfl := Option.some.inj h
    rfl

/-- What is captured is consumed. -/
theorem captured_subset_of_ofLog? {m : Match} (h : ofLog? slots log = some m)
    {capture : String × Captured} (hcapture : capture ∈ m.captures) :
    capture.2.nodes ⊆ m.consumed := by
  obtain ⟨first, last, -, -, rfl⟩ := exists_of_ofLog? h
  obtain ⟨slot, -, hslot⟩ := List.mem_filterMap.mp (mem_of_mem_foldr_insertByName hcapture)
  obtain ⟨captured, hcaptured, rfl⟩ := Option.map_eq_some_iff.mp hslot
  intro n hn
  rw [nodes_of_captured? hcaptured, consumedUnder, List.mem_flatMap] at hn
  obtain ⟨c, hc, hn⟩ := hn
  obtain ⟨name, -, rfl⟩ := List.mem_map.mp hn
  exact List.mem_map_of_mem hc

theorem isSome_ofLog? (slots : List CaptureSlot) (h : log ≠ []) :
    ∃ m, ofLog? slots log = some m := by
  cases log with
  | nil => exact absurd rfl h
  | cons first rest =>
      rw [ofLog?, List.head?_cons, List.getLast?_cons]
      exact ⟨_, rfl⟩

end Match

namespace Scene

variable {s : Scene} {p : Pattern}

theorem ne_nil_of_mem_results {log : List Consumed} (h : log ∈ s.results p) : log ≠ [] := by
  rw [results, List.mem_filter] at h
  rintro rfl
  exact Bool.noConfusion h.2

/-- A result is a way on which the pattern continues the empty one. -/
theorem leads_of_mem_results {log : List Consumed} (h : log ∈ s.results p) :
    ∃ w, s.Leads (Pattern.slotNames p.captureSlots) {} w ∧ w.log.reverse = log := by
  rw [results, List.mem_filter, List.mem_map] at h
  obtain ⟨⟨w, hw, rfl⟩, -⟩ := h
  exact ⟨w, leads_of_mem_mean (List.nil_subset _) p {} w (Pattern.recorded_subset_captureSlots p) hw,
    rfl⟩

theorem sound_of_mem_results (hf : s.forest.WellFormed) {log : List Consumed}
    (h : log ∈ s.results p) :
    ∃ w, s.Sound (Pattern.slotNames p.captureSlots) w ∧ w.log.reverse = log := by
  obtain ⟨w, hleads, hlog⟩ := leads_of_mem_results h
  exact ⟨w, hleads.sound hf (sound_empty s _), hlog⟩

/-- Every result is a match. -/
theorem map_ofLog?_results (s : Scene) (p : Pattern) :
    (s.results p).map (Match.ofLog? p.captureSlots) = (s.matches p).map some := by
  unfold Scene.matches
  have hall : ∀ log ∈ s.results p, ∃ m, Match.ofLog? p.captureSlots log = some m :=
    fun log h => Match.isSome_ofLog? _ (ne_nil_of_mem_results h)
  generalize s.results p = logs at hall
  induction logs with
  | nil => rfl
  | cons log logs ih =>
      obtain ⟨m, hm⟩ := hall log List.mem_cons_self
      rw [List.map_cons, List.filterMap_cons_some hm, List.map_cons, hm,
        ih fun log' h => hall log' (List.mem_cons_of_mem _ h)]

end Scene

/-! ### The program of a pattern -/

namespace Search

variable {s : Search} {p : Pattern}

theorem names_of_compile (hs : s.program = p.compile) :
    s.names = Pattern.slotNames p.captureSlots := by
  rw [names, hs]
  rfl

theorem holds_of_compile (hs : s.program = p.compile) :
    s.program.Holds 0 (p.code s.names [] .child 0 ++ [.done]) := by
  intro i instruction hi
  rw [names_of_compile hs] at hi
  rw [hs, Nat.zero_add, Program.at?, Pattern.compile, List.getElem?_toArray]
  exact hi

/-- **The machine gives the results of the pattern, one after another.** -/
theorem solutions_of_compile (hf : s.forest.WellFormed) (hp : p.Proper)
    (hs : s.program = p.compile) :
    s.Solutions (.resuming initial)
      ((s.results p).map fun log => log.map (Consumed.visit s.names)) := by
  have hcode := holds_of_compile hs
  have hrec : p.recorded ⊆ s.names := by
    rw [names_of_compile hs]
    exact Pattern.recorded_subset_captureSlots p
  have hdone : s.program.at? (0 + p.codeLength) = some .done := by
    have := hcode.right.head
    rwa [Pattern.length_code] at this
  have hrealises := realises_code hf p [] .child 0 hp (List.nil_subset _) hrec hcode.left
  have hyields : s.Yields ⟨0, none, []⟩ _ :=
    hrealises {} _ (Scene.sound_empty s.toScene s.names) fun w _ => yields_done hdone
  have hsolutions : s.Solutions (.resuming initial) _ :=
    solutions_of_running rfl (hyields [] [] (solutions_resuming_nil s))
  rw [List.append_nil] at hsolutions
  have hresults : ((s.results p).map fun log => log.map (Consumed.visit s.names)) =
      (s.mean [] .child p {}).flatMap fun w =>
        if (w.thread s.names (0 + p.codeLength)).trail.isEmpty then []
        else [(w.thread s.names (0 + p.codeLength)).trail.reverse] := by
    unfold Scene.results
    induction s.mean [] .child p {} with
    | nil => rfl
    | cons w ways ih =>
        rw [List.flatMap_cons, ← ih]
        cases hlog : w.log with
        | nil => simp [hlog, Way.thread]
        | cons c log => simp [hlog, Way.thread]
  rw [hresults]
  exact hsolutions

/-- A solution is read as the match of the way that it stands for. -/
theorem ofVisits?_of_compile (hf : s.forest.WellFormed) (hs : s.program = p.compile)
    {log : List Consumed} (hlog : log ∈ s.results p) :
    Match.ofVisits? s.program (log.map (Consumed.visit s.names)) =
      Match.ofLog? p.captureSlots log := by
  obtain ⟨w, hw, rfl⟩ := Scene.sound_of_mem_results hf hlog
  rw [names_of_compile hs, hs]
  refine Match.ofVisits?_visits p fun c hc => ?_
  exact hw.names c (List.mem_reverse.mp hc)

theorem exists_solutions_of_compile (hf : s.forest.WellFormed) (hp : p.Proper)
    (hs : s.program = p.compile) :
    ∃ solutions, s.Solutions (.resuming initial) solutions ∧
      solutions.map (Match.ofVisits? s.program) =
        (s.results p).map (Match.ofLog? p.captureSlots) := by
  refine ⟨_, solutions_of_compile hf hp hs, ?_⟩
  rw [List.map_map]
  exact List.map_congr_left fun log hlog => ofVisits?_of_compile hf hs hlog

end Search

/-! ### Patterns that have been read -/

namespace CompiledPattern

variable {text : String} {settings : Settings} {p : CompiledPattern}

/-- The program of a pattern at work. -/
def search (p : CompiledPattern) (scene : Scene) : Search := { scene with program := p.program }

theorem names_search (h : read text settings = .ok p) (scene : Scene) :
    (p.search scene).names = Pattern.slotNames p.pattern.captureSlots :=
  Search.names_of_compile (of_read h).2

theorem solutions_search (h : read text settings = .ok p) (scene : Scene)
    (hf : scene.forest.WellFormed) :
    (p.search scene).Solutions (.resuming Search.initial)
      ((scene.results p.pattern).map fun log =>
        log.map (Consumed.visit (p.search scene).names)) :=
  Search.solutions_of_compile hf (of_read h).1 (of_read h).2

/-- A solution is read as the match of the way that it stands for. -/
theorem ofVisits?_search (h : read text settings = .ok p) {scene : Scene}
    (hf : scene.forest.WellFormed) {log : List Consumed} (hlog : log ∈ scene.results p.pattern) :
    Match.ofVisits? p.program (log.map (Consumed.visit (p.search scene).names)) =
      Match.ofLog? p.pattern.captureSlots log :=
  Search.ofVisits?_of_compile hf (of_read h).2 hlog

/-- **The machine finds what the pattern means:** whatever is searched, the solutions that the
machine gives one after another, and no others, are the results of the pattern in their order; they
consume the same nodes and are read as the same matches. -/
theorem solutions_eq_results (h : read text settings = .ok p) (scene : Scene)
    (hf : scene.forest.WellFormed) :
    ∃ solutions, (p.search scene).Solutions (.resuming Search.initial) solutions ∧
      (∀ other, (p.search scene).Solutions (.resuming Search.initial) other →
        other = solutions) ∧
      solutions.map (·.map (·.node)) = (scene.results p.pattern).map (·.map (·.node)) ∧
      solutions.map (Match.ofVisits? p.program) =
        (scene.results p.pattern).map (Match.ofLog? p.pattern.captureSlots) := by
  have hsolutions := solutions_search h scene hf
  refine ⟨_, hsolutions, ?_, ?_, ?_⟩
  · intro other hother
    exact hother.unique hsolutions
  · rw [List.map_map]
    refine List.map_congr_left fun log _ => ?_
    rw [Function.comp_apply, List.map_map]
    rfl
  · rw [List.map_map]
    exact List.map_congr_left fun log hlog => ofVisits?_search h hf hlog

/-- A node and some of its siblings, in any order, that look like it. -/
def alikeSiblings : CompiledPattern :=
  let pattern : Pattern := .sequence [(none, .capture "x" (.test (.literal "a"))),
    (some .anySibling, .repetition (.test (.reference "x")) 0 none true)]
  { source := "x:a &$x*", pattern, program := pattern.compile, template := none, predicates := [] }

theorem read_alikeSiblings : read "x:a &$x*" {} = .ok alikeSiblings := by
  cbv

/-- A node with three leaves that look alike. -/
def threeAlike : Document := Document.ofTree (.node "r" [.node "a" [], .node "a" [], .node "a" []])

theorem wellFormed_threeAlike : threeAlike.forest.WellFormed := Forest.wellFormed_ofTree _

/-- From the first of three alike siblings, the others follow in both orders. -/
theorem solutions_eq_results_threeAlike :
    ∃ solutions, (alikeSiblings.search ⟨threeAlike.forest, {}, 0, 1⟩).Solutions
      (.resuming Search.initial) solutions ∧
      solutions.map (·.map (·.node)) = [[1, 2, 3], [1, 2], [1, 3, 2], [1, 3], [1]] := by
  obtain ⟨solutions, hsolutions, -, hnodes, -⟩ :=
    solutions_eq_results read_alikeSiblings ⟨threeAlike.forest, {}, 0, 1⟩ wellFormed_threeAlike
  exact ⟨solutions, hsolutions, hnodes.trans (by decide +kernel)⟩

end CompiledPattern

end TreeRules
