/-
The states that a forest can come into.

A forest starts with no nodes.  From there on anything may be done to its nodes, in any order, and
targets of matches may be replaced in between: by a template, or by a callback that itself does
anything to the nodes.  A match is kept by the names of its nodes and names stay good, so it may be
an old one, whatever has been done since it was found.

Every such forest is well formed.  A replacement is nothing new in this: what it does to places is
to take the target out and to move the roots in, and where a root cannot go it stays where it is.
-/
import TreeRules.Proofs.Forest.Operation
import TreeRules.Proofs.Matching.Find
import TreeRules.Proofs.Rule.Replacement

namespace TreeRules

variable {f g : Forest} {d : Document} {m : Match} {r : Replacement} {n p target : NodeId}
  {roots : List NodeId} {build : Forest → Match → Forest × List NodeId}

namespace Replacement

/-! ### Replacing a target keeps a forest well formed -/

/-- What a replacement does to the forest before its roots are put in place is done by operations,
and the roots are nodes. -/
def ByOperations (f : Forest) (m : Match) : Replacement → Prop
  | template _ => True
  | callback build =>
    Forest.Operations f (build f m).1 ∧ ∀ root ∈ (build f m).2, root < (build f m).1.size

/-- The document when the roots have been put into the target's place and that has been reported. -/
def settle (d : Document) (place : Place) (target : NodeId) (moved roots : List NodeId) :
    Document :=
  { putInto d place roots with
    forest := report (putInto d place roots).forest target moved roots place.parent }

theorem size_insertAll (f : Forest) (p : NodeId) (index : Nat) (roots : List NodeId) :
    (insertAll f p index roots).size = f.size := by
  induction roots generalizing f index with
  | nil => rfl
  | cons root roots ih =>
      rw [insertAll, ih]
      exact Forest.size_insertChild f p index root

theorem size_settle (d : Document) (place : Place) (target : NodeId) (moved roots : List NodeId) :
    (settle d place target moved roots).forest.size = d.forest.size := by
  refine (congrArg Array.size (nodes_report _ target moved roots place.parent)).trans ?_
  unfold putInto
  split
  · exact size_insertAll _ _ _ _
  · rfl
  · rfl

theorem wellFormed_insertAll (hf : f.WellFormed) (hp : p < f.size)
    (hroots : ∀ root ∈ roots, root < f.size) (index : Nat) :
    (insertAll f p index roots).WellFormed := by
  induction roots generalizing f index with
  | nil => exact hf
  | cons root roots ih =>
      rw [List.forall_mem_cons] at hroots
      have hsize : (f.insertChild p index root).size = f.size :=
        Forest.size_insertChild f p index root
      exact ih (hf.insertChild hroots.1 hp index) (hsize.symm ▸ hp)
        (fun other hother => hsize.symm ▸ hroots.2 other hother) (index + 1)

theorem wellFormed_settle {place : Place} (hd : d.forest.WellFormed)
    (hplace : ∀ p, place.parent = some p → p < d.forest.size)
    (hroots : ∀ root ∈ roots, root < d.forest.size) (target : NodeId) (moved : List NodeId) :
    (settle d place target moved roots).forest.WellFormed := by
  have hput : (putInto d place roots).forest.WellFormed := by
    unfold putInto
    split
    · rename_i p hp
      exact wellFormed_insertAll hd (hplace p hp) hroots _
    · exact hd
    · exact hd
  exact (hput.grows_of_nodes_eq (nodes_report _ _ _ _ _)).wellFormed

theorem root_settle_lt {place : Place} (hd : d.root < d.forest.size)
    (hroots : ∀ root ∈ roots, root < d.forest.size) (target : NodeId) (moved : List NodeId) :
    (settle d place target moved roots).root < d.forest.size := by
  show (putInto d place roots).root < d.forest.size
  unfold putInto
  split
  · exact hd
  · exact hroots _ List.mem_cons_self
  · exact hd

/-- A template is refused, or its roots are put in place of the target that was taken out. -/
theorem applyTemplate_cases (d : Document) (m : Match) (t : Template) :
    (applyTemplate d m t).1 = d ∨
      (applyTemplate d m t).1 =
        settle ⟨(t.instantiate (d.forest.detach m.target) m).1.forest, d.root⟩
          (placeOf d.forest m.target) m.target
          (t.instantiate (d.forest.detach m.target) m).1.moved
          (t.instantiate (d.forest.detach m.target) m).2 := by
  unfold applyTemplate
  dsimp only
  split
  · exact Or.inl rfl
  · exact Or.inr rfl

/-- The forest that a callback has left, with the target taken out of it unless a root encloses
it. -/
def release (f : Forest) (target : NodeId) (roots : List NodeId) : Forest :=
  if roots.any (f.encloses · target) then f else f.detach target

theorem size_release (f : Forest) (target : NodeId) (roots : List NodeId) :
    (release f target roots).size = f.size := by
  unfold release
  split
  · rfl
  · exact Forest.size_detach f target

theorem wellFormed_release (hf : f.WellFormed) (target : NodeId) (roots : List NodeId) :
    (release f target roots).WellFormed := by
  unfold release
  split
  · exact hf
  · exact hf.detach target

/-- **What may come of a callback.**  It answers with the target alone, and nothing more is done;
its answer is refused, for a fault or for the number of its nodes; or the answer is put in place of
the target, which has been taken out unless a root encloses it. -/
theorem applyCallback_cases (hbuild : build d.forest m = (g, roots)) :
    (applyCallback d m build = (⟨g, d.root⟩, .ok ⟨false, []⟩)) ∨
      (∃ e, (firstFault? ⟨g, d.root⟩ (placeOf d.forest m.target) [] roots = some e ∨
          e = .invalidRootReplacement m.target roots.length) ∧
        applyCallback d m build = (⟨g, d.root⟩, .error e)) ∨
      firstFault? ⟨g, d.root⟩ (placeOf d.forest m.target) [] roots = none ∧
        (d.forest.parent m.target = none → roots.length = 1) ∧
        ∃ moved, applyCallback d m build =
          (settle ⟨release g m.target roots, d.root⟩ (placeOf d.forest m.target) m.target moved
            roots, .ok ⟨true, roots⟩) := by
  unfold applyCallback
  rw [hbuild]
  dsimp only
  split
  · exact Or.inl rfl
  split
  · rename_i e hfault
    exact Or.inr (Or.inl ⟨e, Or.inl hfault, rfl⟩)
  rename_i hfault
  split
  · exact Or.inr (Or.inl ⟨_, Or.inr rfl, rfl⟩)
  rename_i hcount
  refine Or.inr (Or.inr ⟨hfault, fun hp => ?_,
    if roots.any (g.encloses · m.target) then [m.target] else [], ?_⟩)
  · by_contra hne
    exact hcount (by simp [placeOf, hp, hne])
  · unfold settle release
    split
    · rfl
    · rfl

/-- **Replacing a target keeps a forest well formed**, and loses no node. -/
theorem wellFormed_apply (hd : d.forest.WellFormed) (ht : m.target < d.forest.size)
    (hr : r.ByOperations d.forest m) :
    (r.apply d m).1.forest.WellFormed ∧ d.forest.size ≤ (r.apply d m).1.forest.size := by
  unfold apply
  split
  · exact ⟨hd, Nat.le_refl _⟩
  cases r with
  | template t =>
      have hconfined := confined_applyTemplate hd ht t
      exact ⟨hconfined.wellFormed, hconfined.keeps.size_le⟩
  | callback build =>
      dsimp only
      obtain ⟨hoperations, hroots⟩ := hr
      obtain ⟨hbuilt, hle⟩ := hoperations.wellFormed hd
      have hbuild : build d.forest m = ((build d.forest m).1, (build d.forest m).2) := rfl
      rcases applyCallback_cases hbuild with heq | ⟨e, -, heq⟩ | ⟨-, -, moved, heq⟩
      · rw [heq]
        exact ⟨hbuilt, hle⟩
      · rw [heq]
        exact ⟨hbuilt, hle⟩
      · have hsize : (release (build d.forest m).1 m.target (build d.forest m).2).size =
            (build d.forest m).1.size := size_release _ _ _
        rw [heq, size_settle]
        refine ⟨wellFormed_settle (wellFormed_release hbuilt _ _) (fun p hp => ?_)
          (fun root hroot => ?_) _ _, ?_⟩
        · -- the parent was a node before the callback was asked
          exact hsize ▸ Nat.lt_of_lt_of_le (hd.parent_lt_size hp) hle
        · exact hsize ▸ hroots root hroot
        · exact hsize ▸ hle

/-- The root of the document stays a node. -/
theorem root_apply_lt (hd : d.forest.WellFormed) (hroot : d.root < d.forest.size)
    (ht : m.target < d.forest.size) (hr : r.ByOperations d.forest m) :
    (r.apply d m).1.root < (r.apply d m).1.forest.size := by
  unfold apply
  split
  · exact hroot
  cases r with
  | template t =>
      dsimp only
      rcases applyTemplate_cases d m t with heq | heq
      · rw [heq]
        exact hroot
      · have hbuilt := t.built_instantiate_detach hd ht
        rw [heq, size_settle]
        refine root_settle_lt ?_ ?_ _ _
        · exact Nat.lt_of_lt_of_le hroot hbuilt.confined.keeps.size_le
        · exact fun root hmem => (hbuilt.free root hmem).lt_size
  | callback build =>
      dsimp only
      obtain ⟨hoperations, hroots⟩ := hr
      have hlt : d.root < (build d.forest m).1.size :=
        Nat.lt_of_lt_of_le hroot (hoperations.wellFormed hd).2
      have hbuild : build d.forest m = ((build d.forest m).1, (build d.forest m).2) := rfl
      rcases applyCallback_cases hbuild with heq | ⟨e, -, heq⟩ | ⟨-, -, moved, heq⟩
      · rw [heq]
        exact hlt
      · rw [heq]
        exact hlt
      · have hsize : (release (build d.forest m).1 m.target (build d.forest m).2).size =
            (build d.forest m).1.size := size_release _ _ _
        rw [heq, size_settle]
        exact root_settle_lt (hsize.symm ▸ hlt)
          (fun root hmem => hsize.symm ▸ hroots root hmem) _ _

end Replacement

namespace Forest

/-! ### Reachable forests -/

/-- One thing done to a forest: an operation on its nodes, or the replacement of a match's target
in a document of which it is the forest. -/
inductive Step : Forest → Forest → Prop
  | operation {f g : Forest} (h : Operation f g) : Step f g
  | replacement (d : Document) {m : Match} (ht : m.target < d.forest.size) {r : Replacement}
      (hr : r.ByOperations d.forest m) : Step d.forest (r.apply d m).1.forest

/-- Things done one after another. -/
def Steps : Forest → Forest → Prop := Relation.ReflTransGen Step

theorem Step.wellFormed (h : Step f g) (hf : f.WellFormed) : g.WellFormed ∧ f.size ≤ g.size := by
  cases h with
  | operation hop => exact hop.wellFormed hf
  | replacement d ht hr => exact Replacement.wellFormed_apply hf ht hr

theorem Steps.wellFormed (h : Steps f g) (hf : f.WellFormed) :
    g.WellFormed ∧ f.size ≤ g.size :=
  wellFormed_of_steps (fun _ _ => Step.wellFormed) h hf

/-! ### Matches that are kept -/

/-- **In every forest that can be reached, the two records of the nodes' places agree**: a node is
among the children of exactly the one that is its parent, no node has a child twice, and following
parents never comes back.  What is found there may be kept, and be replaced whatever has been done
since. -/
theorem linked_of_steps (h : Steps {} f) :
    (∀ c p, c ∈ f.children p ↔ f.parent c = some p) ∧ (∀ p, (f.children p).Nodup) ∧
      (∀ n, ¬ f.Beneath n n) ∧
      ∀ (text : String) (settings limits : Settings) (p : CompiledPattern)
        (predicates : Predicates) (scanRoot : NodeId) (m : Match),
        CompiledPattern.read text settings = .ok p → scanRoot < f.size →
        m ∈ p.findAll f predicates limits scanRoot →
        ∀ d : Document, Steps f d.forest → ∀ r : Replacement, r.ByOperations d.forest m →
          Steps {} (r.apply d m).1.forest := by
  have hf := (h.wellFormed wellFormed_empty).1
  refine ⟨fun c p => (hf.parent_iff c p).symm, hf.nodup, hf.acyclic, ?_⟩
  intro text settings limits p predicates scanRoot m hread hroot hm d hlater r hr
  have hin := CompiledPattern.inForest_of_mem_allMatches hf hroot
    (CompiledPattern.mem_allMatches_of_mem_findAll hread hf hm)
  have hlater' := hin.mono (hlater.wellFormed hf).2
  exact (h.trans hlater).tail (.replacement d hlater'.target hr)

open CompiledPattern in
/-- A match of three alike siblings is replaced, first by a node that takes its target along and
then, when it is an old one, by what a callback makes. -/
theorem linked_of_steps_threeAlike :
    let m : Match := ⟨1, 3, [1, 2, 3], [("x", .single 1)]⟩
    let wrap : Replacement := .template ⟨[.node (.literal "b") [.node .target []]]⟩
    let make : Replacement := .callback fun f _ => ((f.newNode "c").1, [f.size])
    let g := (make.apply (wrap.apply threeAlike m).1 m).1.forest
    g.children 0 = [1, 2, 4] ∧ g.children 4 = [5] ∧
      (∀ c p, c ∈ g.children p ↔ g.parent c = some p) ∧ ∀ n, ¬ g.Beneath n n := by
  intro m wrap make g
  have htext : TextFormat.paren.read "r(a a a)" =
      .ok (.node "r" [.node "a" [], .node "a" [], .node "a" []]) := by
    cbv
  have hmakes : ∀ f : Forest, make.ByOperations f m := by
    refine fun f => ⟨.single (.newNode f "c"), ?_⟩
    simp [size_newNode]
  have hload : Step {} threeAlike.forest := .operation (.load {} .paren "r(a a a)" htext)
  have hwrap : Step threeAlike.forest (wrap.apply threeAlike m).1.forest :=
    .replacement threeAlike (by decide +kernel) trivial
  have hmake : Step (wrap.apply threeAlike m).1.forest g :=
    .replacement (wrap.apply threeAlike m).1 (by decide +kernel) (hmakes _)
  have hlinked := linked_of_steps (((Relation.ReflTransGen.single hload).tail hwrap).tail hmake)
  exact ⟨by decide +kernel, by decide +kernel, hlinked.1, hlinked.2.2.1⟩

end Forest

end TreeRules
