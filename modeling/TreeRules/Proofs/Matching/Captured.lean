/-
What the names of a match bind.

A name binds the nodes that are consumed under it, in the order in which they are consumed.  Each
node is listed once for every capture of that name around the test that consumes it.  That is once
only, unless a capture of the name lies within another one: the code of a test lists the slots of
all the captures around it, and a slot that it lists twice has the node twice.

A slot for a single node has at most one, so what it binds is of the kind that is declared.
-/
import TreeRules.Proofs.Matching.Find
import TreeRules.Proofs.Matching.Recorded

namespace TreeRules

/-! ### Captures by name -/

namespace Match

variable {slots : List CaptureSlot} {log : List Consumed} {name : String}

theorem lookup_insertByName {capture : String × Captured} {others : List (String × Captured)}
    (h : capture.1 ∉ others.map Prod.fst) (name : String) :
    (insertByName capture others).lookup name = (capture :: others).lookup name := by
  induction others with
  | nil => rfl
  | cons first others ih =>
      rw [List.map_cons, List.mem_cons, not_or] at h
      rw [insertByName]
      split
      · rfl
      · -- the capture stands behind the first one, whose name is another
        have hrest := ih h.2
        obtain ⟨key, captured⟩ := capture
        obtain ⟨other, first⟩ := first
        by_cases hname : name = other
        · subst hname
          have hne : (name == key) = false := beq_eq_false_iff_ne.mpr (Ne.symm h.1)
          simp [List.lookup_cons, hne]
        · have hne : (name == other) = false := beq_eq_false_iff_ne.mpr hname
          rw [List.lookup_cons] at hrest
          simp only [List.lookup_cons, hne, hrest]

theorem lookup_foldr_insertByName {bound : List (String × Captured)}
    (h : (bound.map Prod.fst).Nodup) (name : String) :
    (bound.foldr insertByName []).lookup name = bound.lookup name := by
  induction bound with
  | nil => rfl
  | cons capture bound ih =>
      rw [List.map_cons, List.nodup_cons] at h
      have hnew : capture.1 ∉ (bound.foldr insertByName []).map Prod.fst := by
        intro hmem
        obtain ⟨other, hother, hname⟩ := List.mem_map.mp hmem
        exact h.1 (hname ▸ List.mem_map_of_mem (mem_of_mem_foldr_insertByName hother))
      obtain ⟨key, captured⟩ := capture
      rw [List.foldr_cons, lookup_insertByName hnew, List.lookup_cons, List.lookup_cons, ih h.2]

theorem lookup_eq_none {bound : List (String × Captured)} (h : name ∉ bound.map Prod.fst) :
    bound.lookup name = none := by
  rw [List.lookup_eq_none_iff]
  intro capture hcapture
  rw [bne_iff_ne]
  rintro rfl
  exact h (List.mem_map_of_mem hcapture)

/-- The captures that bind a node, in the order of their slots. -/
def bindings (slots : List CaptureSlot) (log : List Consumed) : List (String × Captured) :=
  slots.filterMap fun slot =>
    (captured? slot.kind (consumedUnder slot.name log)).map (slot.name, ·)

theorem capturesOf_eq (slots : List CaptureSlot) (log : List Consumed) :
    capturesOf slots log = (bindings slots log).foldr insertByName [] := rfl

theorem map_fst_bindings_sublist (slots : List CaptureSlot) (log : List Consumed) :
    ((bindings slots log).map Prod.fst).Sublist (Pattern.slotNames slots) := by
  induction slots with
  | nil => exact List.Sublist.refl _
  | cons slot slots ih =>
      unfold bindings
      rw [List.filterMap_cons]
      cases captured? slot.kind (consumedUnder slot.name log) with
      | none => exact ih.cons slot.name
      | some captured => exact ih.cons_cons slot.name

theorem lookup_bindings (hslots : (Pattern.slotNames slots).Nodup) {slot : CaptureSlot}
    (hslot : slot ∈ slots) :
    (bindings slots log).lookup slot.name =
      captured? slot.kind (consumedUnder slot.name log) := by
  induction slots with
  | nil => exact absurd hslot List.not_mem_nil
  | cons first slots ih =>
      rw [Pattern.slotNames, List.map_cons, List.nodup_cons] at hslots
      have hothers : first.name ∉ (bindings slots log).map Prod.fst :=
        fun hmem => hslots.1 ((map_fst_bindings_sublist slots log).subset hmem)
      unfold bindings
      rw [List.filterMap_cons]
      rcases List.mem_cons.mp hslot with rfl | hslot
      · cases captured? slot.kind (consumedUnder slot.name log) with
        | none => exact lookup_eq_none hothers
        | some captured => exact List.lookup_cons_self
      · have hrest := ih hslots.2 hslot
        cases captured? first.kind (consumedUnder first.name log) with
        | none => exact hrest
        | some captured =>
            have hne : (slot.name == first.name) = false := by
              rw [beq_eq_false_iff_ne]
              intro heq
              exact hslots.1 (heq ▸ List.mem_map_of_mem hslot)
            dsimp only [Option.map_some]
            rw [List.lookup_cons, hne]
            exact hrest

/-- **A name is looked up as its slot captures.** -/
theorem lookup_capturesOf (hslots : (Pattern.slotNames slots).Nodup) {slot : CaptureSlot}
    (hslot : slot ∈ slots) :
    (capturesOf slots log).lookup slot.name =
      captured? slot.kind (consumedUnder slot.name log) := by
  rw [capturesOf_eq, lookup_foldr_insertByName (hslots.sublist (map_fst_bindings_sublist slots log)),
    lookup_bindings hslots hslot]

theorem lookup_capturesOf_of_not_mem (hslots : (Pattern.slotNames slots).Nodup)
    (hname : name ∉ Pattern.slotNames slots) : (capturesOf slots log).lookup name = none := by
  rw [capturesOf_eq, lookup_foldr_insertByName (hslots.sublist (map_fst_bindings_sublist slots log))]
  exact lookup_eq_none fun hmem => hname ((map_fst_bindings_sublist slots log).subset hmem)

theorem captured?_eq_none {kind : CaptureKind} {nodes : List NodeId}
    (h : captured? kind nodes = none) : nodes = [] := by
  unfold captured? at h
  split at h
  · rfl
  · cases h
  · cases h

/-- **A match binds to a name what is consumed under it.** -/
theorem nodes_of_ofLog? {m : Match} (hslots : (Pattern.slotNames slots).Nodup)
    (hlog : ∀ c ∈ log, c.names ⊆ Pattern.slotNames slots) (h : ofLog? slots log = some m)
    (name : String) : m.nodes name = consumedUnder name log := by
  obtain ⟨first, last, -, -, rfl⟩ := exists_of_ofLog? h
  unfold nodes
  dsimp only
  by_cases hname : name ∈ Pattern.slotNames slots
  · obtain ⟨slot, hslot, rfl⟩ := List.mem_map.mp hname
    rw [lookup_capturesOf hslots hslot]
    cases hcaptured : captured? slot.kind (consumedUnder slot.name log) with
    | none => exact (captured?_eq_none hcaptured).symm
    | some captured => exact nodes_of_captured? hcaptured
  · rw [lookup_capturesOf_of_not_mem hslots hname]
    exact (consumedUnder_eq_nil fun c hc hmem => hname (hlog c hc hmem)).symm

end Match

namespace CompiledPattern

variable {text : String} {settings limits : Settings} {p : CompiledPattern} {f : Forest}
  {predicates : Predicates} {scanRoot : NodeId} {m : Match}

/-! ### What a name binds -/

/-- **A name binds the nodes that are consumed under it, in the order in which they are consumed.**
Each is listed once for every capture of the name that it is consumed within.  So the nodes are
those consumed under the name, each listed once, exactly if none is consumed within two captures of
the name; and that cannot be unless the pattern has a test within two captures of it. -/
theorem nodes_of_findAll (h : read text settings = .ok p) (hf : f.WellFormed)
    (hm : m ∈ p.findAll f predicates limits scanRoot) :
    ∃ start ∈ f.preorder scanRoot,
      ∃ log ∈ Scene.results ⟨f, predicates, scanRoot, start⟩ p.pattern,
        m.consumed = log.map (·.node) ∧ m.consumed.Nodup ∧
        ∀ name,
          m.nodes name = log.flatMap (fun c => List.replicate (c.names.count name) c.node) ∧
          (m.nodes name = (log.filter (·.names.contains name)).map (·.node) ↔
            ∀ c ∈ log, c.names.count name ≤ 1) ∧
          ((∀ around ∈ p.pattern.namesOfTests [], around.count name ≤ 1) →
            ∀ c ∈ log, c.names.count name ≤ 1) := by
  obtain ⟨start, hstart, log, hlog, hread⟩ :=
    exists_result_of_mem_allMatches (mem_allMatches_of_mem_findAll h hf hm)
  obtain ⟨w, hsound, hw⟩ := Scene.sound_of_mem_results hf hlog
  have hconsumed : m.consumed = log.map (·.node) := (Match.ofLog?_eq_some hread).1
  have hnodup : (log.map (·.node)).Nodup := by
    rw [← hw, List.map_reverse, List.nodup_reverse]
    exact hsound.nodup
  have hnames : ∀ c ∈ log, c.names ⊆ Pattern.slotNames p.pattern.captureSlots := by
    intro c hc
    rw [← hw] at hc
    exact hsound.names c (List.mem_reverse.mp hc)
  have hnodes := Match.nodes_of_ofLog? (Pattern.nodup_captureSlots p.pattern) hnames hread
  refine ⟨start, hstart, log, hlog, hconsumed, hconsumed ▸ hnodup, fun name => ⟨?_, ?_, ?_⟩⟩
  · rw [hnodes, Match.consumedUnder_eq]
  · rw [hnodes]
    exact Match.consumedUnder_eq_filter_iff hnodup
  · intro haround c hc
    exact haround c.names (Scene.names_of_mem_results hlog c hc)

/-- A node and one beneath it, captured under a name, and the lower one under that name again. -/
def capturedAgain : CompiledPattern :=
  let pattern : Pattern := .capture "x" (.sequence [(none, .test (.literal "a")),
    (some .child, .capture "x" (.test (.literal "b")))])
  { source := "x:(a/x:b)", pattern, program := pattern.compile, template := none, predicates := [] }

theorem read_capturedAgain : read "x:(a/x:b)" {} = .ok capturedAgain := by
  cbv

/-- A node with one beneath it. -/
def leafBelow : Document := Document.ofTree (.node "a" [.node "b" []])

theorem wellFormed_leafBelow : leafBelow.forest.WellFormed := Forest.wellFormed_ofTree _

/-- The match of the two nodes, which lists the lower one twice. -/
def listedAgain : Match := ⟨0, 1, [0, 1], [("x", .multiple [0, 1, 1])]⟩

theorem mem_findAll_capturedAgain : listedAgain ∈ capturedAgain.findAll leafBelow.forest {} {} 0 := by
  rw [findAll_eq_take read_capturedAgain wellFormed_leafBelow]
  decide +kernel

theorem nodes_of_findAll_capturedAgain :
    ∃ start ∈ leafBelow.forest.preorder 0,
      ∃ log ∈ Scene.results ⟨leafBelow.forest, {}, 0, start⟩ capturedAgain.pattern,
        [0, 1] = log.map (·.node) ∧
        [0, 1, 1] = log.flatMap fun c => List.replicate (c.names.count "x") c.node := by
  obtain ⟨start, hstart, log, hlog, hconsumed, -, hname⟩ :=
    nodes_of_findAll read_capturedAgain wellFormed_leafBelow mem_findAll_capturedAgain
  exact ⟨start, hstart, log, hlog, hconsumed, (hname "x").1⟩

/-- A name may list a node twice: `x:(a/x:b)` binds the node above, the one beneath and the one
beneath again. -/
theorem node_may_be_listed_twice :
    ¬ ∀ (text : String) (settings limits : Settings) (p : CompiledPattern) (f : Forest)
      (predicates : Predicates) (scanRoot : NodeId) (m : Match) (name : String),
      read text settings = .ok p → f.WellFormed → m ∈ p.findAll f predicates limits scanRoot →
        (m.nodes name).Sublist m.consumed ∧ (m.nodes name).Nodup := by
  intro h
  have hnodup := (h _ _ {} _ _ _ _ _ "x" read_capturedAgain wellFormed_leafBelow
    mem_findAll_capturedAgain).2
  exact absurd hnodup (by decide)

/-! ### Kinds -/

/-- **Captures are of the kind that is declared.**  Whatever solution a machine gives, a slot in
which it records no node binds nothing, one for a single node has just one and binds it as such, and
one for several nodes binds all that it has as a list. -/
theorem captured_as_declared (h : read text settings = .ok p) (scene : Scene)
    (hf : scene.forest.WellFormed) {solutions : List (List Visit)}
    (hsolutions : (p.search scene).Solutions (.resuming Search.initial) solutions)
    {visits : List Visit} (hvisits : visits ∈ solutions) :
    ∃ m, Match.ofVisits? p.program visits = some m ∧
      ∀ i slot, p.program.captures[i]? = some slot →
        (Match.recordedIn i visits = [] ∧ m.captures.lookup slot.name = none) ∨
        (slot.kind = .single ∧ ∃ n, Match.recordedIn i visits = [n] ∧
          m.captures.lookup slot.name = some (.single n)) ∨
        (slot.kind = .multiple ∧ Match.recordedIn i visits ≠ [] ∧
          m.captures.lookup slot.name = some (.multiple (Match.recordedIn i visits))) := by
  rw [hsolutions.unique (solutions_search h scene hf)] at hvisits
  obtain ⟨log, hlog, rfl⟩ := List.mem_map.mp hvisits
  obtain ⟨m, hm⟩ := Match.isSome_ofLog? p.pattern.captureSlots (Scene.ne_nil_of_mem_results hlog)
  refine ⟨m, (ofVisits?_search h hf hlog).trans hm, fun i slot hslot => ?_⟩
  have hslots : p.program.captures = p.pattern.captureSlots := by
    rw [(of_read h).2]
    rfl
  rw [hslots] at hslot
  have hrecorded : Match.recordedIn i (log.map (Consumed.visit (p.search scene).names)) =
      Match.consumedUnder slot.name log := by
    rw [names_search h]
    obtain ⟨w, hw, rfl⟩ := Scene.sound_of_mem_results hf hlog
    exact Match.recordedIn_visits (Pattern.nodup_captureSlots p.pattern)
      (fun c hc => hw.names c (List.mem_reverse.mp hc)) hslot
  have hlookup : m.captures.lookup slot.name =
      Match.captured? slot.kind (Match.consumedUnder slot.name log) := by
    obtain ⟨first, last, -, -, rfl⟩ := Match.exists_of_ofLog? hm
    exact Match.lookup_capturesOf (Pattern.nodup_captureSlots p.pattern)
      (List.mem_of_getElem? hslot)
  rw [hrecorded, hlookup]
  obtain ⟨name, kind⟩ := slot
  dsimp only
  cases hnodes : Match.consumedUnder name log with
  | nil => exact Or.inl ⟨rfl, by cases kind <;> rfl⟩
  | cons n nodes =>
      cases kind with
      | multiple =>
          exact Or.inr (Or.inr ⟨rfl, List.cons_ne_nil n nodes, by cases nodes <;> rfl⟩)
      | single =>
          have hle := Scene.length_consumedUnder_of_single (List.mem_of_getElem? hslot) hlog
          obtain rfl : nodes = [] := by
            rw [hnodes] at hle
            simpa using hle
          exact Or.inr (Or.inl ⟨rfl, n, rfl, rfl⟩)

/-- The first of three alike siblings is captured as a single node, however many follow it. -/
theorem captured_as_declared_threeAlike :
    ∃ m, Match.ofVisits? alikeSiblings.program [⟨1, [0]⟩, ⟨2, []⟩, ⟨3, []⟩] = some m ∧
      m.captures.lookup "x" = some (.single 1) := by
  have hmem : [⟨1, [0]⟩, ⟨2, []⟩, ⟨3, []⟩] ∈
      (Scene.results ⟨threeAlike.forest, {}, 0, 1⟩ alikeSiblings.pattern).map fun log =>
        log.map (Consumed.visit
          (alikeSiblings.search ⟨threeAlike.forest, {}, 0, 1⟩).names) := by
    decide +kernel
  obtain ⟨m, hm, hslots⟩ := captured_as_declared read_alikeSiblings
    ⟨threeAlike.forest, {}, 0, 1⟩ wellFormed_threeAlike
    (solutions_search read_alikeSiblings _ wellFormed_threeAlike) hmem
  rcases hslots 0 ⟨"x", .single⟩ rfl with ⟨hnone, -⟩ | ⟨-, n, hone, hlookup⟩ | ⟨hkind, -⟩
  · exact absurd hnone (by decide)
  · obtain rfl : n = 1 := by simpa [Match.recordedIn] using hone.symm
    exact ⟨m, hm, hlookup⟩
  · cases hkind

end CompiledPattern

end TreeRules
