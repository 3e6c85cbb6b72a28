/-
Clones.

A clone stands apart: it looks like the node it was made of, it is made of new nodes that no record
observes, and all that was there is as it was.

A clone can also be made in place, with no value tree in between.  The copy of the root waits on a
stack beside its source.  A copy is taken off the stack and given copies of its source's children,
which wait in their turn.  The invariant is about what the clone would look like if the sources stood
in the place of the copies that wait: it would look like the node that is cloned.  A step only puts
off where the sources are read, and each leaves one node less to be copied.
-/
import TreeRules.Proofs.Forest.Plant
import TreeRules.Proofs.Forest.Preorder
import TreeRules.Proofs.Forest.Records

namespace TreeRules.Forest

variable {f g h : Forest} {a c n root : NodeId} {sources : List NodeId}
  {pairs pending : List (NodeId × NodeId)}

/-- The second forest has a clone of `n` besides what the first has. -/
structure Cloned (f : Forest) (n : NodeId) (g : Forest) (root : NodeId) : Prop where
  wellFormed : g.WellFormed
  parent_root : g.parent root = none
  tree_root : g.tree root = f.tree n
  /-- What lies in the clone is new. -/
  new : ∀ m, g.Within m root → f.size ≤ m ∧ m < g.size
  unobserved : ∀ m, g.Within m root → g.observers m = []
  value : ∀ m, m < f.size → g.value m = f.value m
  parent : ∀ m, m < f.size → g.parent m = f.parent m
  children : ∀ m, m < f.size → g.children m = f.children m
  observers : ∀ m, m < f.size → g.observers m = f.observers m
  deliveries : g.deliveries = f.deliveries

/-- Gives `copy` a copy of each of the nodes, behind the children it has.  The answer pairs them. -/
def copyBeneath (f : Forest) (copy : NodeId) : List NodeId → Forest × List (NodeId × NodeId)
  | [] => (f, [])
  | source :: later =>
    let (f, child) := f.newNode (f.value source)
    let (f, pairs) := (f.pushChild copy child).copyBeneath copy later
    (f, (source, child) :: pairs)

/-- Gives each copy that waits beside its source what lies beneath the source.  The children's
copies are taken up, from the last one to the first, before those that are left. -/
def copyPending (f : Forest) : List (NodeId × NodeId) → Option Forest
  | [] => some f
  | (source, copy) :: pending =>
    let (f, pairs) := f.copyBeneath copy (f.children source)
    f |>.copyPending (pairs.reverse ++ pending)
partial_fixpoint

/-- A clone that is made in place; the answer is its root. -/
def cloneInPlace (f : Forest) (n : NodeId) : Option (Forest × NodeId) := do
  let (g, root) := f.newNode (f.value n)
  let h ← g.copyPending [(n, root)]
  return (h, root)

/-! ### A tree of its own -/

theorem observers_of_size_le (hn : f.size ≤ n) : f.observers n = [] := by
  unfold observers
  rw [Array.getElem?_eq_none hn]

/-- Old nodes lie only within old nodes. -/
theorem Grows.new_of_within (hg : f.Grows g) (hf : f.WellFormed) (hroot : f.size ≤ root)
    (hn : g.Within n root) : f.size ≤ n := by
  by_contra hlt
  have hold : f.Within n root := by
    rwa [← hg.keeps.within_iff hf (fun _ _ _ hfalse => hfalse) (Nat.lt_of_not_le hlt) id]
  exact Nat.not_lt.mpr hroot (hf.lt_size_of_within (Nat.lt_of_not_le hlt) hold)

/-- **A planted tree that looks like a node is a clone of it**, if nobody has heard of it. -/
theorem Planted.cloned (hplanted : f.Planted g (f.tree n)) (hf : f.WellFormed)
    (hsilent : f.Silent g) : f.Cloned n g f.size where
  wellFormed := hplanted.wellFormed
  parent_root := hplanted.parent_root
  tree_root := hplanted.tree_root
  new := by
    intro m hm
    exact ⟨hplanted.new_of_within hf (Nat.le_refl _) hm, lt_size_of_within hplanted.lt_size hm⟩
  unobserved := by
    intro m hm
    rw [hsilent.observers]
    exact observers_of_size_le (hplanted.new_of_within hf (Nat.le_refl _) hm)
  value := by intro m hm; exact hplanted.value hm
  parent := by intro m hm; exact hplanted.parent hm
  children := hplanted.children
  observers := by intro m _; exact hsilent.observers m
  deliveries := hsilent.deliveries

/-! ### One node is given copies -/

/-- The second node of the pair is a new one with the text of the first, which was there before, and
has no children yet. -/
structure Waits (f g : Forest) (pair : NodeId × NodeId) : Prop where
  source_lt : pair.1 < f.size
  new : f.size ≤ pair.2
  lt_size : pair.2 < g.size
  value : g.value pair.2 = f.value pair.1
  children : g.children pair.2 = []

namespace Waits

/-- A copy of a node that was there from the first. -/
theorem of_grows {pair : NodeId × NodeId} (hw : g.Waits h pair) (hg : f.Grows g)
    (hsource : pair.1 < f.size) : f.Waits h pair where
  source_lt := hsource
  new := Nat.le_trans hg.keeps.size_le hw.new
  lt_size := hw.lt_size
  value := hw.value.trans (hg.keeps.value pair.1 hsource id)
  children := hw.children

/-- A copy that still has no children. -/
theorem later {pair : NodeId × NodeId} (hw : f.Waits g pair) (hh : g.Grows h)
    (hchildren : h.children pair.2 = g.children pair.2) : f.Waits h pair where
  source_lt := hw.source_lt
  new := hw.new
  lt_size := Nat.lt_of_lt_of_le hw.lt_size hh.keeps.size_le
  value := (hh.keeps.value pair.2 hw.lt_size id).trans hw.value
  children := hchildren.trans hw.children

end Waits

/-- `c` has been given copies of the sources, behind the children that it had. -/
structure GivenCopies (f g : Forest) (c : NodeId) (sources : List NodeId)
    (pairs : List (NodeId × NodeId)) : Prop extends f.Grows g where
  silent : f.Silent g
  children : ∀ m, m < f.size → m ≠ c → g.children m = f.children m
  children_self : g.children c = f.children c ++ pairs.map Prod.snd
  sources_eq : pairs.map Prod.fst = sources
  waits : ∀ pair ∈ pairs, f.Waits g pair

/-- A new node is hung behind the children of another. -/
theorem WellFormed.hung_newNode (hf : f.WellFormed) (hc : c < f.size) (text : String) :
    Hung (f.newNode text).1 ((f.newNode text).1.pushChild c f.size) c (f.children c) [f.size] [] := by
  have hapart : ¬ (f.newNode text).1.Within c f.size := by
    rw [within_newNode]
    intro hw
    exact Nat.lt_irrefl _ (hf.lt_size_of_within hc hw)
  have hhung := hung_insertChild_at (hf.newNode text) (Nat.lt_trans hc (lt_size_newNode f text))
    (lt_size_newNode f text) (parent_newNode_self f text) hapart (f.children c).length
  rw [children_newNode, List.take_length, List.drop_length] at hhung
  rwa [pushChild, children_newNode]

/-- **One copy is made.** -/
theorem WellFormed.givenCopies_one (hf : f.WellFormed) (hc : c < f.size) (ha : a < f.size) :
    f.GivenCopies ((f.newNode (f.value a)).1.pushChild c f.size) c [a] [(a, f.size)] := by
  have hlt := lt_size_newNode f (f.value a)
  have hhung := hf.hung_newNode hc (f.value a)
  have hchildren : ∀ m, m ≠ c →
      ((f.newNode (f.value a)).1.pushChild c f.size).children m = f.children m := by
    intro m hm
    rw [hhung.children m hm, children_newNode]
  exact {
    toGrows := (hf.grows_newNode _).pushChild (Nat.lt_trans hc hlt) hlt (Nat.le_refl _)
    silent := (silent_newNode f _).trans (silent_insertChild _ c _ f.size)
    children := by intro m _ hm; exact hchildren m hm
    children_self := by rw [hhung.children_self, List.append_nil]; rfl
    sources_eq := rfl
    waits := by
      rw [List.forall_mem_singleton]
      refine ⟨ha, Nat.le_refl _, by rwa [hhung.size], ?_, ?_⟩
      · rw [hhung.value, value_newNode, if_pos rfl]
      · rw [hchildren f.size (Nat.ne_of_gt hc), children_of_size_le (Nat.le_refl _)] }

/-- Others are made after it. -/
theorem GivenCopies.cons {pair : NodeId × NodeId} (hg : f.GivenCopies g c [a] [pair])
    (hh : g.GivenCopies h c sources pairs) (hc : c < f.size) (hsources : ∀ s ∈ sources, s < f.size) :
    f.GivenCopies h c (a :: sources) (pair :: pairs) where
  toGrows := hg.toGrows.trans hh.toGrows
  silent := hg.silent.trans hh.silent
  children := by
    intro m hm hmc
    rw [hh.children m (Nat.lt_of_lt_of_le hm hg.keeps.size_le) hmc, hg.children m hm hmc]
  children_self := by rw [hh.children_self, hg.children_self]; simp
  sources_eq := by
    rw [List.map_cons, hh.sources_eq]
    exact congrArg (· ++ sources) hg.sources_eq
  waits := by
    have hfirst := hg.waits pair List.mem_cons_self
    rw [List.forall_mem_cons]
    refine ⟨?_, fun later hlater => ?_⟩
    · refine hfirst.later hh.toGrows (hh.children _ hfirst.lt_size ?_)
      exact Nat.ne_of_gt (Nat.lt_of_lt_of_le hc hfirst.new)
    · have hsource : later.1 ∈ sources := hh.sources_eq ▸ List.mem_map_of_mem hlater
      exact (hh.waits later hlater).of_grows hg.toGrows (hsources later.1 hsource)

/-- **A node is given a copy of each source.** -/
theorem givenCopies_copyBeneath (hf : f.WellFormed) (hc : c < f.size)
    (hsources : ∀ s ∈ sources, s < f.size) :
    f.GivenCopies (f.copyBeneath c sources).1 c sources (f.copyBeneath c sources).2 := by
  induction sources generalizing f with
  | nil =>
      rw [copyBeneath]
      exact ⟨Grows.refl hf, Silent.refl f, fun _ _ _ => rfl, (List.append_nil _).symm, rfl,
        List.forall_mem_nil _⟩
  | cons a sources ih =>
      obtain ⟨ha, hsources⟩ := List.forall_mem_cons.mp hsources
      have hone := hf.givenCopies_one hc ha
      have hle := hone.keeps.size_le
      have hothers := ih hone.wellFormed (Nat.lt_of_lt_of_le hc hle) fun s hs =>
        Nat.lt_of_lt_of_le (hsources s hs) hle
      exact hone.cons hothers hc hsources

/-! ### What the copies that wait stand for -/

/-- The tree of its source, for a copy that waits. -/
def promised (f : Forest) (pending : List (NodeId × NodeId)) (copy : NodeId) :
    Option (List ValueTree) :=
  (pending.find? (·.2 == copy)).map fun pair => [f.tree pair.1]

theorem promised_append {waiting : List (NodeId × NodeId)} (h : c ∉ waiting.map Prod.snd) :
    f.promised (waiting ++ pending) c = f.promised pending c := by
  have hfind : waiting.find? (·.2 == c) = none := by
    rw [List.find?_eq_none]
    intro pair hpair heq
    exact h (List.mem_map.mpr ⟨pair, hpair, beq_iff_eq.mp heq⟩)
  rw [promised, List.find?_append, hfind, Option.none_or]
  rfl

theorem promised_eq_none (h : c ∉ pending.map Prod.snd) : f.promised pending c = none := by
  rw [← List.append_nil pending, promised_append h]
  rfl

theorem promised_eq_some (hnodup : (pending.map Prod.snd).Nodup) (h : (a, c) ∈ pending) :
    f.promised pending c = some [f.tree a] := by
  induction pending with
  | nil => simp at h
  | cons pair pending ih =>
      rw [List.map_cons, List.nodup_cons] at hnodup
      rcases List.mem_cons.mp h with rfl | hmem
      · rw [promised, List.find?_cons_of_pos (by simp), Option.map_some]
      · have hother : c ∉ [pair].map Prod.snd := by
          rw [List.map_singleton, List.mem_singleton]
          rintro rfl
          exact hnodup.1 (List.mem_map.mpr ⟨_, hmem, rfl⟩)
        rw [← List.singleton_append, promised_append hother]
        exact ih hnodup.2 hmem

/-- Copying has got so far: with the sources read in the place of the copies that wait, the new tree
looks like `n`. -/
structure Copying (f : Forest) (n : NodeId) (g : Forest) (pending : List (NodeId × NodeId)) : Prop
    extends f.Extends g where
  silent : f.Silent g
  lt_size : f.size < g.size
  parent_root : g.parent f.size = none
  nodup : (pending.map Prod.snd).Nodup
  waits : ∀ pair ∈ pending, f.Waits g pair
  reads : g.substitute (f.promised pending) f.size = [f.tree n]

/-- At first only the root waits. -/
theorem WellFormed.copying_newNode (hf : f.WellFormed) (hn : n < f.size) :
    f.Copying n (f.newNode (f.value n)).1 [(n, f.size)] where
  toExtends := hf.extends_newNode _
  silent := silent_newNode f _
  lt_size := lt_size_newNode f _
  parent_root := parent_newNode_self f _
  nodup := List.nodup_singleton _
  waits := by
    rw [List.forall_mem_singleton]
    refine ⟨hn, Nat.le_refl _, lt_size_newNode f _, ?_, ?_⟩
    · rw [value_newNode, if_pos rfl]
    · rw [children_newNode, children_of_size_le (Nat.le_refl _)]
  reads := by
    rw [(hf.newNode _).substitute_eq, promised_eq_some (by simp) List.mem_cons_self]
    rfl

/-- When none waits, the tree is there. -/
theorem Copying.planted (hg : f.Copying n g []) : f.Planted g (f.tree n) where
  toExtends := hg.toExtends
  lt_size := hg.lt_size
  parent_root := hg.parent_root
  tree_root := by
    have hnone : g.substitute (f.promised []) f.size = [g.tree f.size] :=
      hg.wellFormed.substitute_of_none _ fun _ _ => rfl
    exact (List.cons.inj (hnone.symm.trans hg.reads)).1

/-- When a node is given its copies, it is read as its source was. -/
theorem Copying.substitute_step (hg : f.Copying n g ((a, c) :: pending)) (hf : f.WellFormed)
    (hh : g.GivenCopies h c (f.children a) pairs)
    (hnodup : ((pairs.reverse ++ pending).map Prod.snd).Nodup) (m : NodeId) (hm : m < g.size) :
    h.substitute (f.promised (pairs.reverse ++ pending)) m =
      g.substitute (f.promised ((a, c) :: pending)) m := by
  have hpast : ∀ m, m < g.size → m ∉ pairs.reverse.map Prod.snd := by
    intro m hm hmem
    obtain ⟨pair, hpair, rfl⟩ := List.mem_map.mp hmem
    exact Nat.not_lt.mpr (hh.waits pair (List.mem_reverse.mp hpair)).new hm
  induction m using hg.wellFormed.down_induction with
  | step m ih =>
      by_cases hmc : m = c
      · subst hmc
        have hwaits := hg.waits (a, m) List.mem_cons_self
        have hlater : m ∉ pending.map Prod.snd := (List.nodup_cons.mp hg.nodup).1
        have hnone : f.promised (pairs.reverse ++ pending) m = none := by
          rw [promised_append (hpast m hm), promised_eq_none hlater]
        have hread : ∀ pair ∈ pairs,
            h.substitute (f.promised (pairs.reverse ++ pending)) pair.2 = [f.tree pair.1] := by
          intro pair hpair
          have hmem : pair ∈ pairs.reverse ++ pending :=
            List.mem_append_left _ (List.mem_reverse.mpr hpair)
          rw [hh.wellFormed.substitute_eq, promised_eq_some hnodup hmem, Option.getD_some]
        have hcopies : (h.children m).flatMap
            (h.substitute (f.promised (pairs.reverse ++ pending))) = (f.children a).map f.tree := by
          rw [hh.children_self, hwaits.children, List.nil_append, List.flatMap_map,
            List.flatMap_congr hread, ← hh.sources_eq, List.map_map, List.map_eq_flatMap]
          rfl
        rw [hh.wellFormed.substitute_eq, hnone, Option.getD_none, hcopies,
          hh.keeps.value m hm id, hwaits.value, ← hf.tree_eq, hg.wellFormed.substitute_eq,
          promised_eq_some hg.nodup List.mem_cons_self, Option.getD_some]
      · have hsame : f.promised (pairs.reverse ++ pending) m =
            f.promised ((a, c) :: pending) m := by
          rw [promised_append (hpast m hm), ← List.singleton_append (l := pending),
            promised_append (by simpa using hmc)]
        rw [hh.wellFormed.substitute_eq, hg.wellFormed.substitute_eq, hsame,
          hh.keeps.value m hm id, hh.children m hm hmc]
        congr 3
        refine List.flatMap_congr fun x hx => ih x hx ?_
        exact hg.wellFormed.lt_size_of_child hx

/-- No two copies that wait are one. -/
theorem Copying.nodup_step (hg : f.Copying n g ((a, c) :: pending))
    (hh : g.GivenCopies h c sources pairs) :
    ((pairs.reverse ++ pending).map Prod.snd).Nodup := by
  have hcopies : h.children c = pairs.map Prod.snd := by
    rw [hh.children_self, (hg.waits (a, c) List.mem_cons_self).children, List.nil_append]
  rw [List.map_append, List.map_reverse]
  refine List.Nodup.append ?_ (List.nodup_cons.mp hg.nodup).2 ?_
  · rw [List.nodup_reverse, ← hcopies]
    exact hh.wellFormed.nodup c
  · intro x hx hx'
    obtain ⟨pair, hpair, rfl⟩ := List.mem_map.mp (List.mem_reverse.mp hx)
    obtain ⟨pair', hpair', heq⟩ := List.mem_map.mp hx'
    have hlt := (hg.waits pair' (List.mem_cons_of_mem _ hpair')).lt_size
    exact Nat.not_lt.mpr (hh.waits pair hpair).new (heq ▸ hlt)

/-- **One node is given its copies.** -/
theorem Copying.step (hg : f.Copying n g ((a, c) :: pending)) (hf : f.WellFormed)
    (hh : g.GivenCopies h c (f.children a) pairs) : f.Copying n h (pairs.reverse ++ pending) where
  toGrows := hg.toGrows.trans hh.toGrows
  children := by
    intro m hm
    have hmc : m ≠ c := Nat.ne_of_lt (Nat.lt_of_lt_of_le hm (hg.waits (a, c) List.mem_cons_self).new)
    rw [hh.children m (Nat.lt_of_lt_of_le hm hg.keeps.size_le) hmc, hg.children m hm]
  silent := hg.silent.trans hh.silent
  lt_size := Nat.lt_of_lt_of_le hg.lt_size hh.keeps.size_le
  parent_root := (hh.keeps.parent f.size hg.lt_size id).trans hg.parent_root
  nodup := hg.nodup_step hh
  waits := by
    rw [List.forall_mem_append]
    refine ⟨fun pair hpair => ?_, fun pair hpair => ?_⟩
    · have hpair := List.mem_reverse.mp hpair
      have hsource : pair.1 ∈ f.children a := hh.sources_eq ▸ List.mem_map_of_mem hpair
      exact (hh.waits pair hpair).of_grows hg.toGrows (hf.lt_size_of_child hsource)
    · have hwaits := hg.waits pair (List.mem_cons_of_mem _ hpair)
      refine hwaits.later hh.toGrows (hh.children _ hwaits.lt_size fun heq => ?_)
      exact (List.nodup_cons.mp hg.nodup).1 (List.mem_map.mpr ⟨pair, hpair, heq⟩)
  reads := (hg.substitute_step hf hh (hg.nodup_step hh) f.size hg.lt_size).trans hg.reads

/-! ### All of them -/

/-- The nodes that have not been given their copies. -/
def uncopied (f : Forest) (pending : List (NodeId × NodeId)) : List NodeId :=
  pending.flatMap fun pair => f.preorder pair.1

/-- Each step leaves one less. -/
theorem GivenCopies.length_uncopied (hh : g.GivenCopies h c (f.children a) pairs)
    (hf : f.WellFormed) (pending : List (NodeId × NodeId)) :
    (f.uncopied ((a, c) :: pending)).length =
      (f.uncopied (pairs.reverse ++ pending)).length + 1 := by
  have hbeneath : f.uncopied pairs = (f.children a).flatMap f.preorder := by
    rw [uncopied, ← hh.sources_eq, List.flatMap_map]
  have hperm : (f.uncopied pairs.reverse).Perm (f.uncopied pairs) :=
    pairs.reverse_perm.flatMap_right _
  have hlength := hperm.length_eq
  rw [hbeneath] at hlength
  rw [uncopied, uncopied, List.flatMap_cons, List.flatMap_append, hf.preorder_eq,
    List.length_append, List.length_append, List.length_cons, ← hlength, uncopied]
  omega

/-- **Copying comes to an end.** -/
theorem Copying.run (hg : f.Copying n g pending) (hf : f.WellFormed) :
    ∃ h, g.copyPending pending = some h ∧ f.Copying n h [] := by
  induction hk : (f.uncopied pending).length generalizing g pending with
  | zero =>
      cases pending with
      | nil => exact ⟨g, by rw [copyPending], hg⟩
      | cons pair pending =>
          rw [uncopied, List.flatMap_cons, hf.preorder_eq] at hk
          simp at hk
  | succ k ih =>
      cases pending with
      | nil => simp [uncopied] at hk
      | cons pair pending =>
          obtain ⟨a, c⟩ := pair
          have hwaits := hg.waits (a, c) List.mem_cons_self
          have ha : a < f.size := hwaits.source_lt
          have hc : c < g.size := hwaits.lt_size
          have hsources : ∀ s ∈ f.children a, s < g.size := by
            intro s hs
            exact Nat.lt_of_lt_of_le (hf.lt_size_of_child hs) hg.keeps.size_le
          have hgiven := givenCopies_copyBeneath hg.wellFormed hc hsources
          have hleft := hgiven.length_uncopied hf pending
          rw [copyPending, hg.children a ha]
          exact ih (hg.step hf hgiven) (by omega)

/-- **A clone is faithful and stands apart.**

In a well-formed forest, what is added for a clone of a node is a tree of its own that looks like
the node.  It is made of new nodes that no record observes.  Every node of before has its text, its
parent, its children and its records still, and the forest stays well formed.  The same holds of a
clone that is made in place, which always comes to an end. -/
theorem cloned_deepClone (hf : f.WellFormed) (hn : n < f.size) :
    f.Cloned n (f.deepClone n).1 (f.deepClone n).2 ∧
      ∃ g, f.cloneInPlace n = some (g, f.size) ∧ f.Cloned n g f.size := by
  constructor
  · rw [deepClone, plant_snd]
    exact (planted_deepClone hf n).cloned hf (silent_plant _ f)
  · obtain ⟨g, hg, hcopied⟩ := (hf.copying_newNode hn).run hf
    refine ⟨g, ?_, hcopied.planted.cloned hf hcopied.silent⟩
    have hroot : (f.newNode (f.value n)).2 = f.size := rfl
    simp only [cloneInPlace, hroot, hg]
    rfl

/-- A tree in which a record observes a node that is neither the root nor a leaf. -/
def watched : Forest :=
  (({} : Forest).plant (.node "r" [.node "a" [.node "b" [], .node "c" []], .node "d" []])).1.observe
    7 1

theorem wellFormed_watched : watched.WellFormed := by
  refine (wellFormed_empty.plant _).congr (parent_modify ?_ _ 1) (children_modify ?_ _ 1)
  · intro node
    rfl
  · intro node
    rfl

theorem cloned_deepClone_watched :
    watched.WellFormed ∧ 1 < watched.size ∧ watched.parent 1 = some 0 ∧ watched.observers 1 = [7] ∧
      watched.Cloned 1 (watched.deepClone 1).1 5 ∧
      (watched.deepClone 1).1.tree 5 = .node "a" [.node "b" [], .node "c" []] ∧
      (watched.deepClone 1).1.preorder 5 = [5, 6, 7] ∧
      (watched.deepClone 1).1.observers 5 = [] ∧ (watched.deepClone 1).1.observers 1 = [7] ∧
      ∃ g, watched.cloneInPlace 1 = some (g, 5) ∧
        g.tree 5 = .node "a" [.node "b" [], .node "c" []] ∧ g.observers 5 = [] ∧
        g.children 0 = [1, 4] := by
  have hf := wellFormed_watched
  have hn : 1 < watched.size := by decide +kernel
  have htree : watched.tree 1 = .node "a" [.node "b" [], .node "c" []] := rfl
  obtain ⟨hclone, g, hg, hplace⟩ := cloned_deepClone hf hn
  have hroot : (watched.deepClone 1).2 = 5 := by decide +kernel
  have hsize : watched.size = 5 := by decide +kernel
  rw [hroot] at hclone
  rw [hsize] at hg hplace
  refine ⟨hf, hn, by decide +kernel, by decide +kernel, hclone, hclone.tree_root.trans htree,
    by decide +kernel, hclone.unobserved 5 (Within.refl 5), ?_, g, hg,
    hplace.tree_root.trans htree, hplace.unobserved 5 (Within.refl 5), ?_⟩
  · rw [hclone.observers 1 hn]
    decide +kernel
  · rw [hplace.children 0 (by decide +kernel)]
    decide +kernel

end TreeRules.Forest
