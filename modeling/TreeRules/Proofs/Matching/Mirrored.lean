/-
Searching in places that look the same.

Two scenes mirror one another if a relation pairs nodes that look alike and follows whatever a
pattern that keeps to a scope may look at: from paired nodes the axes lead to paired nodes, in the
same order.  Then a way through the pattern in the one is mirrored by a way in the other, step by
step.  A test accepts paired nodes alike, a reference compares trees that are equal, and a node has
been consumed exactly if the node that it is paired with has, since no node is paired with two.

The two forests may differ in size, and so do the bounds on the rounds of a loop.  That makes no
difference: both are as many as there can be rounds that consume a node.
-/
import TreeRules.Proofs.Forest.Counterpart
import TreeRules.Proofs.Matching.Unrolled
import TreeRules.Proofs.Pattern.Scope

namespace TreeRules

open List (Forall₂)

/-! ### What mirrors what -/

/-- Paired nodes that are captured under the same names. -/
structure Consumed.Mirrors (R : NodeId → NodeId → Prop) (c c' : Consumed) : Prop where
  node : R c.node c'.node
  names : c.names = c'.names

/-- As many paired nodes are bound in the same way. -/
structure Captured.Mirrors (R : NodeId → NodeId → Prop) (c c' : Captured) : Prop where
  kind : c.kind = c'.kind
  nodes : Forall₂ R c.nodes c'.nodes

/-- Paired nodes are bound to the same name. -/
structure Bound.Mirrors (R : NodeId → NodeId → Prop) (c c' : String × Captured) : Prop where
  name : c.1 = c'.1
  captured : c.2.Mirrors R c'.2

/-- All nodes that the two matches name are paired, each with the one in the same place. -/
structure Match.Mirrors (R : NodeId → NodeId → Prop) (m m' : Match) : Prop where
  start : R m.start m'.start
  target : R m.target m'.target
  consumed : Forall₂ R m.consumed m'.consumed
  captures : Forall₂ (Bound.Mirrors R) m.captures m'.captures

/-- To a pattern that keeps to the scope the two scenes look the same. -/
structure Scene.Mirrors (s s' : Scene) (scope : Scope) (R : NodeId → NodeId → Prop) : Prop where
  wellFormed : s.forest.WellFormed
  wellFormed' : s'.forest.WellFormed
  /-- No node is paired with two. -/
  biUnique : Relator.BiUnique R
  predicates : s.predicates = s'.predicates
  start : R s.start s'.start
  anchored : scope.anchored = true → (s.start = s.scanRoot ↔ s'.start = s'.scanRoot)
  tree : ∀ n n', R n n' → s.forest.tree n = s'.forest.tree n'
  along : ∀ axis, scope.follows axis = true → ∀ n n', R n n' →
    Forall₂ R (s.forest.along axis n) (s'.forest.along axis n')
  parent : scope.climbs = true → ∀ n n', R n n' →
    Option.Rel R (s.forest.parent n) (s'.forest.parent n')

/-- The two ways have come about by consuming paired nodes, and have come to paired nodes. -/
structure Way.Mirrors (s s' : Scene) (R : NodeId → NodeId → Prop) (w w' : Way) : Prop where
  here : Option.Rel R w.here w'.here
  log : Forall₂ (Consumed.Mirrors R) w.log w'.log
  sound : ∃ declared, s.Sound declared w
  sound' : ∃ declared, s'.Sound declared w'

section

variable {s s' : Scene} {scope : Scope} {R : NodeId → NodeId → Prop} {w w' : Way}
  {names : List String} {axis : Axis} {n n' : NodeId}

/-! ### One node -/

theorem any_eq_of_rel {α β : Type} {S : α → β → Prop} {o : Option α} {o' : Option β}
    {p : α → Bool} {q : β → Bool} (h : Option.Rel S o o') (hS : ∀ a b, S a b → p a = q b) :
    o.any p = o'.any q := by
  cases h with
  | none => rfl
  | some hab => exact hS _ _ hab

theorem Way.Mirrors.nodes (hw : w.Mirrors s s' R w') :
    Forall₂ R (w.log.map Consumed.node) (w'.log.map Consumed.node) :=
  List.rel_map (fun _ _ hc => hc.node) hw.log

theorem Way.Mirrors.bound (hw : w.Mirrors s s' R w') (name : String) :
    Option.Rel R (w.bound name) (w'.bound name) := by
  have hlog := hw.log
  unfold Way.bound
  generalize w.log = log at hlog
  generalize w'.log = log' at hlog
  induction hlog with
  | nil => exact .none
  | @cons c c' log log' hc _ ih =>
      rw [List.find?_cons, List.find?_cons, hc.names]
      cases c'.names.contains name with
      | true => exact .some hc.node
      | false => exact ih

namespace Scene.Mirrors

/-- Paired nodes pass the same tests. -/
theorem passes_eq (hs : s.Mirrors s' scope R) (hw : w.Mirrors s s' R w') (hn : R n n')
    (test : NodeTest) : s.passes test w n = s'.passes test w' n' := by
  have htree := hs.tree n n' hn
  have hvalue : s.forest.value n = s'.forest.value n' := by
    rw [← Forest.value_tree, htree, Forest.value_tree]
  cases test with
  | any => rfl
  | literal text => rw [passes, passes, hvalue]
  | predicate name => rw [passes, passes, hvalue, hs.predicates]
  | reference name =>
      rw [passes, passes]
      refine any_eq_of_rel (hw.bound name) fun b b' hb => ?_
      rw [Bool.eq_iff_iff, Forest.sameTree_iff, Forest.sameTree_iff, hs.tree b b' hb,
        htree]

theorem consumed_eq (hs : s.Mirrors s' scope R) (hw : w.Mirrors s s' R w') (hn : R n n') :
    w.consumed n = w'.consumed n' := by
  have hmem := List.rel_mem hs.biUnique hn hw.nodes
  rw [Bool.eq_iff_iff]
  simpa [Way.consumed] using hmem

/-- What may be consumed next is paired. -/
theorem choices (hs : s.Mirrors s' scope R) (hw : w.Mirrors s s' R w')
    (haxis : scope.follows axis = true) (test : NodeTest) :
    Forall₂ R (s.choices axis test w) (s'.choices axis test w') := by
  have hnearby : Forall₂ R (s.nearby axis w) (s'.nearby axis w') := by
    have hhere := hw.here
    unfold nearby
    generalize w.here = here at hhere
    generalize w'.here = here' at hhere
    cases hhere with
    | none => exact .cons hs.start .nil
    | some hn => exact hs.along axis haxis _ _ hn
  refine List.rel_filter (fun n n' hn => ?_) hnearby
  dsimp only
  rw [hs.passes_eq hw hn, hs.consumed_eq hw hn]

/-- A condition holds of both ways or of neither. -/
theorem holds_eq (hs : s.Mirrors s' scope R) (hw : w.Mirrors s s' R w') {place : Anchor}
    (hplace : (Pattern.anchor place).keepsTo scope = true) : s.holds place w = s'.holds place w' := by
  cases place with
  | root =>
      rw [Pattern.keepsTo] at hplace
      rw [Bool.eq_iff_iff]
      simpa [holds] using hs.anchored hplace
  | leaf =>
      rw [holds, holds]
      refine any_eq_of_rel hw.here fun n n' hn => ?_
      have hlength := (hs.wellFormed.forall₂_children_of_tree_eq hs.wellFormed'
        (hs.tree n n' hn)).length_eq
      rw [Bool.eq_iff_iff, List.isEmpty_iff_length_eq_zero, List.isEmpty_iff_length_eq_zero,
        hlength]

end Scene.Mirrors

/-! ### One way -/

namespace Way.Mirrors

/-- Paired nodes are consumed. -/
theorem consume (hw : w.Mirrors s s' R w') (hn : R n n')
    (hsound : ∃ declared, s.Sound declared (w.consume n names))
    (hsound' : ∃ declared, s'.Sound declared (w'.consume n' names)) :
    (w.consume n names).Mirrors s s' R (w'.consume n' names) where
  here := .some hn
  log := .cons ⟨hn, rfl⟩ hw.log
  sound := hsound
  sound' := hsound'

/-- Both ways go on from other nodes, which are paired. -/
theorem move (hw : w.Mirrors s s' R w') {here here' : Option NodeId} (h : Option.Rel R here here') :
    Way.Mirrors s s' R { w with here } { w' with here := here' } where
  here := h
  log := hw.log
  sound := by
    obtain ⟨declared, hsound⟩ := hw.sound
    exact ⟨declared, hsound.nodup, hsound.inForest, hsound.names⟩
  sound' := by
    obtain ⟨declared, hsound⟩ := hw.sound'
    exact ⟨declared, hsound.nodup, hsound.inForest, hsound.names⟩

end Way.Mirrors

theorem Scene.Sound.mono {declared more : List String} (hw : s.Sound declared w)
    (h : declared ⊆ more) : s.Sound more w where
  nodup := hw.nodup
  inForest := hw.inForest
  names := by
    intro c hc
    exact List.Subset.trans (hw.names c hc) h

/-- What comes about by consuming does so whatever pattern goes on. -/
theorem Scene.exists_sound_of_mem_mean (hf : s.forest.WellFormed) {p : Pattern} {v : Way}
    (hw : ∃ declared, s.Sound declared w) (h : v ∈ s.mean names axis p w) :
    ∃ declared, s.Sound declared v := by
  obtain ⟨declared, hw⟩ := hw
  have hleads : s.Leads (declared ++ (names ++ p.recorded)) w v := by
    refine leads_of_mem_mean ?_ p w v ?_ h
    · exact List.subset_append_of_subset_right _ (List.subset_append_left _ _)
    · exact List.subset_append_of_subset_right _ (List.subset_append_right _ _)
  exact ⟨_, hleads.sound hf (hw.mono (List.subset_append_left _ _))⟩

/-! ### Rounds -/

section

variable {once once' : Way → List Way} {S : Way → Way → Prop}

theorem Way.rel_rounds (h : ∀ w w', S w w' → Forall₂ S (once w) (once' w')) (count : Nat) :
    ∀ w w', S w w' → Forall₂ S (rounds once count w) (rounds once' count w') := by
  induction count with
  | zero =>
      intro w w' hw
      exact .cons hw .nil
  | succ count ih =>
      intro w w' hw
      rw [rounds, rounds]
      exact List.rel_flatMap (h w w' hw) fun v v' hv => ih v v' hv

theorem Way.rel_upTo (h : ∀ w w', S w w' → Forall₂ S (once w) (once' w')) (greedy : Bool)
    (count : Nat) :
    ∀ w w', S w w' → Forall₂ S (upTo once greedy count w) (upTo once' greedy count w') := by
  induction count with
  | zero =>
      intro w w' hw
      exact .cons hw .nil
  | succ count ih =>
      intro w w' hw
      have hmore : Forall₂ S ((once w).flatMap (upTo once greedy count))
          ((once' w').flatMap (upTo once' greedy count)) :=
        List.rel_flatMap (h w w' hw) fun v v' hv => ih v v' hv
      rw [upTo, upTo]
      cases greedy with
      | true => exact List.rel_append hmore (.cons hw .nil)
      | false => exact .cons hw hmore

end

namespace Scene.Mirrors

/-- As many rounds as may be in the one are as good as those in the other. -/
theorem upTo_mostRounds (hs : s.Mirrors s' scope R) {body : Pattern}
    (hbody : body.canBeEmpty = false)
    (honce : ∀ w w', w.Mirrors s s' R w' →
      Forall₂ (Way.Mirrors s s' R) (s.mean names axis body w) (s'.mean names axis body w'))
    (greedy : Bool) (hw : w.Mirrors s s' R w') :
    Forall₂ (Way.Mirrors s s' R) (Way.upTo (s.mean names axis body) greedy s.mostRounds w)
      (Way.upTo (s'.mean names axis body) greedy s'.mostRounds w') := by
  have hmost : ∀ {s : Scene} {w : Way}, (∃ declared, s.Sound declared w) →
      w.log.length ≤ s.mostRounds := by
    rintro s w ⟨declared, hw⟩
    exact hw.length_le
  have hupTo : ∀ {s : Scene} {w : Way}, s.forest.WellFormed → (∃ declared, s.Sound declared w) →
      ∀ count, s.mostRounds ≤ count →
        Way.upTo (s.mean names axis body) greedy count w =
          Way.upTo (s.mean names axis body) greedy s.mostRounds w := by
    intro s w hf hw count hcount
    refine upTo_eq_of_le greedy (fun _ _ hw h => exists_sound_of_mem_mean hf hw h)
      (fun _ => hmost) (fun w v => length_lt_of_mem_mean body w v hbody) hcount hw
  rw [← hupTo hs.wellFormed hw.sound _ (le_max_left s.mostRounds s'.mostRounds),
    ← hupTo hs.wellFormed' hw.sound' _ (le_max_right s.mostRounds s'.mostRounds)]
  exact Way.rel_upTo honce greedy _ w w' hw

mutual

/-- **A way through a pattern is mirrored step by step.** -/
theorem mean (hs : s.Mirrors s' scope R) :
    ∀ {p : Pattern}, p.Proper → p.keepsTo scope = true → ∀ (names : List String) {axis : Axis},
      scope.follows axis = true → ∀ w w', w.Mirrors s s' R w' →
        Forall₂ (Way.Mirrors s s' R) (s.mean names axis p w) (s'.mean names axis p w')
  | .test asked, _, _, names, axis, haxis, w, w', hw => by
      have hchoices := hs.choices hw haxis asked
      have hmem : ∀ n ∈ s.choices axis asked w,
          w.consume n names ∈ s.mean names axis (.test asked) w := by
        intro n hn
        exact List.mem_map_of_mem hn
      have hmem' : ∀ n ∈ s'.choices axis asked w',
          w'.consume n names ∈ s'.mean names axis (.test asked) w' := by
        intro n hn
        exact List.mem_map_of_mem hn
      rw [Scene.mean, Scene.mean, List.forall₂_map_left_iff, List.forall₂_map_right_iff]
      rw [List.forall₂_iff_zip] at hchoices ⊢
      refine ⟨hchoices.1, fun {n n'} hpair => hw.consume (hchoices.2 hpair) ?_ ?_⟩
      · exact exists_sound_of_mem_mean hs.wellFormed hw.sound
          (hmem n (List.of_mem_zip hpair).1)
      · exact exists_sound_of_mem_mean hs.wellFormed' hw.sound'
          (hmem' n' (List.of_mem_zip hpair).2)
  | .sequence steps, hp, hkeeps, names, axis, haxis, w, w', hw => by
      rw [Pattern.Proper] at hp
      rw [Pattern.keepsTo] at hkeeps
      rw [Scene.mean, Scene.mean]
      exact meanSteps hs hp hkeeps names haxis w w' hw
  | .alternation branches, hp, hkeeps, names, axis, haxis, w, w', hw => by
      rw [Pattern.Proper] at hp
      rw [Pattern.keepsTo] at hkeeps
      rw [Scene.mean, Scene.mean]
      exact meanBranches hs hp.2 hkeeps names haxis w w' hw
  | .repetition body min max greedy, hp, hkeeps, names, axis, haxis, w, w', hw => by
      rw [Pattern.Proper] at hp
      rw [Pattern.keepsTo] at hkeeps
      have honce := mean hs hp.2 hkeeps names haxis
      rw [Scene.mean, Scene.mean]
      refine List.rel_flatMap (Way.rel_rounds honce min w w' hw) fun v v' hv => ?_
      cases max with
      | some max => exact Way.rel_upTo honce greedy (max - min) v v' hv
      | none => exact hs.upTo_mostRounds (hp.1 rfl) honce greedy hv
  | .capture name body, hp, hkeeps, names, axis, haxis, w, w', hw => by
      rw [Pattern.Proper] at hp
      rw [Pattern.keepsTo] at hkeeps
      rw [Scene.mean, Scene.mean]
      exact mean hs hp hkeeps (names ++ [name]) haxis w w' hw
  | .anchor place, _, hkeeps, names, axis, _, w, w', hw => by
      rw [Scene.mean, Scene.mean, hs.holds_eq hw hkeeps]
      split
      · exact .cons hw .nil
      · exact .nil
  | .parent, _, hkeeps, names, axis, _, w, w', hw => by
      rw [Pattern.keepsTo] at hkeeps
      have hup : Option.Rel R (w.here.bind s.forest.parent) (w'.here.bind s'.forest.parent) := by
        have hhere := hw.here
        generalize w.here = here at hhere ⊢
        generalize w'.here = here' at hhere ⊢
        cases hhere with
        | none => exact .none
        | some hn => exact hs.parent hkeeps _ _ hn
      rw [Scene.mean, Scene.mean]
      generalize w.here.bind s.forest.parent = up at hup ⊢
      generalize w'.here.bind s'.forest.parent = up' at hup ⊢
      cases hup with
      | none => exact .nil
      | some hn => exact .cons (hw.move (.some hn)) .nil

theorem meanSteps (hs : s.Mirrors s' scope R) :
    ∀ {steps : List (Option Axis × Pattern)}, Pattern.ProperSteps steps →
      Pattern.stepsKeepTo scope steps = true → ∀ (names : List String) {axis : Axis},
        scope.follows axis = true → ∀ w w', w.Mirrors s s' R w' →
          Forall₂ (Way.Mirrors s s' R) (s.meanSteps names axis steps w)
            (s'.meanSteps names axis steps w')
  | [], _, _, names, axis, _, w, w', hw => by
      rw [Scene.meanSteps, Scene.meanSteps]
      exact .cons hw .nil
  | (own, step) :: steps, hp, hkeeps, names, axis, haxis, w, w', hw => by
      rw [Pattern.ProperSteps] at hp
      rw [Pattern.stepsKeepTo, Bool.and_eq_true, Bool.and_eq_true] at hkeeps
      have hown : scope.follows (own.getD axis) = true := by
        cases own with
        | none => exact haxis
        | some own => exact hkeeps.1.1
      rw [Scene.meanSteps, Scene.meanSteps]
      exact List.rel_flatMap (mean hs hp.1 hkeeps.1.2 names hown w w' hw)
        fun v v' hv => meanSteps hs hp.2 hkeeps.2 names haxis v v' hv

theorem meanBranches (hs : s.Mirrors s' scope R) :
    ∀ {branches : List Pattern}, Pattern.ProperBranches branches →
      Pattern.branchesKeepTo scope branches = true → ∀ (names : List String) {axis : Axis},
        scope.follows axis = true → ∀ w w', w.Mirrors s s' R w' →
          Forall₂ (Way.Mirrors s s' R) (s.meanBranches names axis branches w)
            (s'.meanBranches names axis branches w')
  | [], _, _, names, axis, _, w, w', _ => by
      rw [Scene.meanBranches, Scene.meanBranches]
      exact .nil
  | branch :: branches, hp, hkeeps, names, axis, haxis, w, w', hw => by
      rw [Pattern.ProperBranches] at hp
      rw [Pattern.branchesKeepTo, Bool.and_eq_true] at hkeeps
      rw [Scene.meanBranches, Scene.meanBranches]
      exact List.rel_append (mean hs hp.1 hkeeps.1 names haxis w w' hw)
        (meanBranches hs hp.2 hkeeps.2 names haxis w w' hw)

end

end Scene.Mirrors

/-! ### Matches -/

theorem Captured.ext_kind {c c' : Captured} (hkind : c.kind = c'.kind)
    (hnodes : c.nodes = c'.nodes) : c = c' := by
  cases c <;> cases c' <;> simp_all [kind, nodes]

namespace Match

variable {slots : List CaptureSlot} {log log' : List Consumed}

theorem rel_consumedUnder (hlog : Forall₂ (Consumed.Mirrors R) log log') (name : String) :
    Forall₂ R (consumedUnder name log) (consumedUnder name log') := by
  refine List.rel_flatMap hlog fun c c' hc => ?_
  rw [hc.names, List.forall₂_map_left_iff, List.forall₂_map_right_iff, List.forall₂_same]
  intro _ _
  exact hc.node

theorem rel_captured? {nodes nodes' : List NodeId} (kind : CaptureKind)
    (hnodes : Forall₂ R nodes nodes') :
    Option.Rel (Captured.Mirrors R) (captured? kind nodes) (captured? kind nodes') := by
  cases hnodes with
  | nil => exact .none
  | @cons n n' rest rest' hn hrest =>
      have hmultiple : Captured.Mirrors R (.multiple (n :: rest)) (.multiple (n' :: rest')) :=
        ⟨rfl, .cons hn hrest⟩
      have hsingle : Captured.Mirrors R (.single n) (.single n') := ⟨rfl, .cons hn .nil⟩
      cases hrest with
      | nil =>
          cases kind with
          | single => exact .some hsingle
          | multiple => exact .some hmultiple
      | cons _ _ =>
          cases kind with
          | single => exact .some hmultiple
          | multiple => exact .some hmultiple

theorem rel_insertByName {capture capture' : String × Captured}
    (hcapture : Bound.Mirrors R capture capture') {others others' : List (String × Captured)}
    (h : Forall₂ (Bound.Mirrors R) others others') :
    Forall₂ (Bound.Mirrors R) (insertByName capture others) (insertByName capture' others') := by
  induction h with
  | nil => exact .cons hcapture .nil
  | cons hother hothers ih =>
      rw [insertByName, insertByName, hcapture.name, hother.name]
      split
      · exact .cons hcapture (.cons hother hothers)
      · exact .cons hother ih

theorem rel_capturesOf (hlog : Forall₂ (Consumed.Mirrors R) log log') :
    Forall₂ (Bound.Mirrors R) (capturesOf slots log) (capturesOf slots log') := by
  have hbound : Forall₂ (Bound.Mirrors R)
      (slots.filterMap fun slot =>
        (captured? slot.kind (consumedUnder slot.name log)).map (slot.name, ·))
      (slots.filterMap fun slot =>
        (captured? slot.kind (consumedUnder slot.name log')).map (slot.name, ·)) := by
    have hslots : Forall₂ Eq slots slots := List.forall₂_refl slots
    refine List.rel_filterMap ?_ hslots
    rintro slot _ rfl
    show Option.Rel (Bound.Mirrors R) (Option.map _ _) (Option.map _ _)
    have hcaptured := rel_captured? slot.kind (rel_consumedUnder hlog slot.name)
    generalize captured? slot.kind (consumedUnder slot.name log) = captured at hcaptured ⊢
    generalize captured? slot.kind (consumedUnder slot.name log') = captured' at hcaptured ⊢
    cases hcaptured with
    | none => exact .none
    | some hcaptured => exact .some (Bound.Mirrors.mk rfl hcaptured)
  refine List.rel_foldr (fun _ _ hcapture _ _ hothers => ?_) .nil hbound
  exact rel_insertByName hcapture hothers

theorem rel_head? (hlog : Forall₂ (Consumed.Mirrors R) log log') :
    Option.Rel (Consumed.Mirrors R) log.head? log'.head? := by
  cases hlog with
  | nil => exact .none
  | cons hc _ => exact .some hc

theorem rel_ofLog? (hlog : Forall₂ (Consumed.Mirrors R) log log') :
    Option.Rel (Match.Mirrors R) (ofLog? slots log) (ofLog? slots log') := by
  have hcaptures : Forall₂ (Bound.Mirrors R) (capturesOf slots log) (capturesOf slots log') :=
    rel_capturesOf hlog
  have hconsumed : Forall₂ R (log.map (·.node)) (log'.map (·.node)) :=
    List.rel_map (fun _ _ hc => hc.node) hlog
  have hhead := rel_head? hlog
  have hlast := rel_head? (List.rel_reverse hlog)
  rw [List.head?_reverse, List.head?_reverse] at hlast
  unfold ofLog?
  generalize log.head? = head at hhead ⊢
  generalize log'.head? = head' at hhead ⊢
  generalize log.getLast? = last at hlast ⊢
  generalize log'.getLast? = last' at hlast ⊢
  cases hhead with
  | none => exact .none
  | some hhead =>
      cases hlast with
      | none => exact .none
      | some hlast => exact .some (Match.Mirrors.mk hhead.node hlast.node hconsumed hcaptures)

/-- Where every node is paired with itself, a match mirrors itself alone. -/
theorem Mirrors.eq {m m' : Match} (h : m.Mirrors Eq m') : m = m' := by
  have hconsumed := h.consumed
  have hcaptures : Forall₂ Eq m.captures m'.captures := h.captures.imp fun c c' hc => by
    have hnodes := hc.captured.nodes
    rw [List.forall₂_eq_eq_eq] at hnodes
    exact Prod.ext hc.name (Captured.ext_kind hc.captured.kind hnodes)
  rw [List.forall₂_eq_eq_eq] at hconsumed hcaptures
  cases m
  cases m'
  rw [Match.mk.injEq]
  exact ⟨h.start, h.target, hconsumed, hcaptures⟩

end Match

/-- **Searching in places that look the same finds matches that mirror one another**, in the same
order. -/
theorem Scene.Mirrors.matches (hs : s.Mirrors s' scope R) {p : Pattern} (hp : p.Proper)
    (hkeeps : p.keepsTo scope = true) (hchild : scope.follows .child = true) :
    Forall₂ (Match.Mirrors R) (s.matches p) (s'.matches p) := by
  have hempty : Way.Mirrors s s' R {} {} :=
    ⟨.none, .nil, ⟨[], sound_empty s []⟩, ⟨[], sound_empty s' []⟩⟩
  have hlogs : Forall₂ (Forall₂ (Consumed.Mirrors R))
      ((s.mean [] .child p {}).map (·.log.reverse)) ((s'.mean [] .child p {}).map (·.log.reverse)) :=
    List.rel_map (fun _ _ hw => List.rel_reverse hw.log) (hs.mean hp hkeeps [] hchild {} {} hempty)
  have hresults : Forall₂ (Forall₂ (Consumed.Mirrors R)) (s.results p) (s'.results p) := by
    refine List.rel_filter (fun log log' hlog => ?_) hlogs
    cases hlog with
    | nil => exact Iff.rfl
    | cons _ _ => exact Iff.rfl
  exact List.rel_filterMap (fun _ _ hlog => Match.rel_ofLog? hlog) hresults

/-! ### What is found -/

theorem exists_of_mem_forall₂ {α β : Type} {S : α → β → Prop} {l : List α} {l' : List β} {a : α}
    (hl : Forall₂ S l l') (ha : a ∈ l) : ∃ b ∈ l', S a b := by
  obtain ⟨hlength, hget⟩ := List.forall₂_iff_get.mp hl
  obtain ⟨i, hi, rfl⟩ := List.getElem_of_mem ha
  exact ⟨_, List.getElem_mem (hlength ▸ hi), hget i hi (hlength ▸ hi)⟩

/-- What holds of the one list holds of the other. -/
theorem forall_mem_iff_of_forall₂ {α β : Type} {S : α → β → Prop} {P : α → Prop} {Q : β → Prop}
    {l : List α} {l' : List β} (hl : Forall₂ S l l') (h : ∀ a b, S a b → (P a ↔ Q b)) :
    (∀ a ∈ l, P a) ↔ ∀ b ∈ l', Q b := by
  induction hl with
  | nil => simp
  | cons hab _ ih => rw [List.forall_mem_cons, List.forall_mem_cons, h _ _ hab, ih]

namespace Match

variable {f g : Forest} {m m' k k' : Match} {kept kept' matched matched' : List Match}

/-- Matches keep clear of one another exactly if those that mirror them do. -/
theorem Mirrors.clear_iff (hR : Relator.BiUnique R)
    (hpreorder : ∀ n n', R n n' → Forall₂ R (f.preorder n) (g.preorder n'))
    (hm : m.Mirrors R m') (hk : k.Mirrors R k') : m.Clear f k ↔ m'.Clear g k' := by
  have htarget := List.rel_mem hR hk.target (hpreorder _ _ hm.target)
  have hconsumed := forall_mem_iff_of_forall₂ hm.consumed fun n n' hn =>
    not_congr (List.rel_mem hR hn (hpreorder _ _ hk.target))
  exact and_congr (not_congr htarget) hconsumed

theorem rel_keepClear (hR : Relator.BiUnique R)
    (hpreorder : ∀ n n', R n n' → Forall₂ R (f.preorder n) (g.preorder n'))
    (hkept : Forall₂ (Match.Mirrors R) kept kept')
    (hmatched : Forall₂ (Match.Mirrors R) matched matched') :
    Forall₂ (Match.Mirrors R) (keepClear f kept matched) (keepClear g kept' matched') := by
  induction hmatched generalizing kept kept' with
  | nil => exact .nil
  | @cons m m' rest rest' hm _ ih =>
      have hclear : (∀ k ∈ kept, m.Clear f k) ↔ ∀ k ∈ kept', m'.Clear g k :=
        forall_mem_iff_of_forall₂ hkept fun k k' hk => hm.clear_iff hR hpreorder hk
      rw [keepClear, keepClear]
      by_cases h : ∀ k ∈ kept, m.Clear f k
      · rw [if_pos h, if_pos (hclear.mp h)]
        exact .cons hm (ih (.cons hm hkept))
      · rw [if_neg h, if_neg (mt hclear.mpr h)]
        exact ih hkept

end Match

/-- **Searches of places that look the same report matches that mirror one another.** -/
theorem CompiledPattern.forall₂_findAll {text : String} {settings : Settings} {p : CompiledPattern}
    (h : read text settings = .ok p) {f g : Forest} {predicates : Predicates} {r r' : NodeId}
    (hscene : ∀ n n', R n n' →
      Scene.Mirrors ⟨f, predicates, r, n⟩ ⟨g, predicates, r', n'⟩ scope R)
    (hpreorder : ∀ n n', R n n' → Forall₂ R (f.preorder n) (g.preorder n')) (hroot : R r r')
    (hkeeps : p.pattern.keepsTo scope = true) (hchild : scope.follows .child = true)
    (limits : Settings) :
    Forall₂ (Match.Mirrors R) (p.findAll f predicates limits r)
      (p.findAll g predicates limits r') := by
  have hs := hscene r r' hroot
  have hall : Forall₂ (Match.Mirrors R) (p.allMatches f predicates r)
      (p.allMatches g predicates r') :=
    List.rel_flatMap (hpreorder r r' hroot) fun n n' hn =>
      (hscene n n' hn).matches (of_read h).1 hkeeps hchild
  have hf : f.WellFormed := hs.wellFormed
  have hg : g.WellFormed := hs.wellFormed'
  rw [findAll_eq_take h hf, findAll_eq_take h hg]
  refine List.forall₂_take _ ?_
  show Forall₂ _ (if limits.allowOverlap then _ else _) (if limits.allowOverlap then _ else _)
  split
  · exact hall
  · exact Match.rel_keepClear hs.biUnique hpreorder .nil hall

end

/-! ### The same nodes -/

section

variable {f g : Forest} {scope : Scope} {predicates : Predicates} {r r' n : NodeId}

/-- Each node is paired with itself where the nodes are the same.  Searches may have started at
different places if that is not asked for, or if either is where the match starts. -/
theorem Scene.mirrors_of_nodes_eq (hf : f.WellFormed) (hnodes : g.nodes = f.nodes)
    (hanchored : scope.anchored = true → (n = r ↔ n = r')) :
    Scene.Mirrors ⟨f, predicates, r, n⟩ ⟨g, predicates, r', n⟩ scope Eq where
  wellFormed := hf
  wellFormed' := (hf.grows_of_nodes_eq hnodes).wellFormed
  biUnique := ⟨fun _ _ _ h h' => h.trans h'.symm, fun _ _ _ h h' => h.symm.trans h'⟩
  predicates := rfl
  start := rfl
  anchored := hanchored
  tree := by
    rintro x _ rfl
    exact (hf.tree_of_nodes_eq hnodes x).symm
  along := by
    rintro axis - x _ rfl
    have hg := (hf.grows_of_nodes_eq hnodes).wellFormed
    have hchildren : ∀ x, g.children x = f.children x := by
      intro x
      rw [Forest.children, Forest.children, hnodes]
    have hparent : ∀ x, g.parent x = f.parent x := by
      intro x
      rw [Forest.parent, Forest.parent, hnodes]
    have halong : f.along axis x = g.along axis x := by
      cases axis with
      | child => exact (hchildren x).symm
      | descendant =>
          exact congrArg List.tail (hf.preorder_congr hg x fun y _ => hchildren y).symm
      | nextSibling =>
          simp only [Forest.along, Forest.nextSibling, Forest.index, hparent, hchildren]
      | anySibling => simp only [Forest.along, Forest.siblings, hparent, hchildren]
    rw [halong]
    exact List.forall₂_refl _
  parent := by
    rintro - x _ rfl
    rw [Forest.parent, Forest.parent, hnodes]
    cases (f.nodes[x]?).bind Node.parent with
    | none => exact .none
    | some p => exact .some rfl

theorem Match.eq_of_forall₂_mirrors {matched matched' : List Match}
    (h : Forall₂ (Match.Mirrors Eq) matched matched') : matched = matched' := by
  have heq : Forall₂ Eq matched matched' := h.imp fun _ _ hm => hm.eq
  rwa [List.forall₂_eq_eq_eq] at heq

/-- **What is found depends on the nodes alone.** -/
theorem CompiledPattern.findAll_of_nodes_eq {text : String} {settings : Settings}
    {p : CompiledPattern} (h : read text settings = .ok p) (hf : f.WellFormed)
    (hnodes : g.nodes = f.nodes) (predicates : Predicates) (limits : Settings) (r : NodeId) :
    p.findAll g predicates limits r = p.findAll f predicates limits r := by
  have hg := (hf.grows_of_nodes_eq hnodes).wellFormed
  have hpreorder : ∀ n n', n = n' → Forall₂ Eq (f.preorder n) (g.preorder n') := by
    rintro n _ rfl
    rw [List.forall₂_eq_eq_eq]
    refine (hf.preorder_congr hg n fun x _ => ?_).symm
    rw [Forest.children, Forest.children, hnodes]
  refine (Match.eq_of_forall₂_mirrors ?_).symm
  refine forall₂_findAll h (fun n n' hn => ?_) hpreorder rfl
    (Pattern.keepsTo_all p.pattern) rfl limits
  subst hn
  exact Scene.mirrors_of_nodes_eq hf hnodes fun _ => Iff.rfl

end

end TreeRules
