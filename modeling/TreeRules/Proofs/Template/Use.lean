/-
What each use of a node comes to.

A template uses nodes of the match one after another.  A use moves the node if the node lies in the
target's subtree at that time and has not been moved before.  What lies there at that time can be
told from the forest as it was before anything was done: a node is no longer within the target
exactly if another one that encloses it, the target apart, has been moved before.  `Match.Takes`
says so, and `Uses` follows the uses with it.

Every other use makes a clone.  A clone is of new nodes and stays as it was made; it looks like its
node did at the beginning, but for the nodes beneath it that had been moved by then.
-/
import Mathlib.Data.List.Induction
import TreeRules.Proofs.Template.Expansion
import TreeRules.Proofs.Template.Moved

namespace TreeRules

/-! ### What stands for a use -/

/-- A node's subtree without what lies at and beneath the nodes of `gone`, itself apart. -/
def Forest.without (f : Forest) (gone : List NodeId) (n : NodeId) : List ValueTree :=
  f.substitute (fun k => if k ∈ gone ∧ k ≠ n then some [] else none) n

namespace Match

/-- A use of the node moves it, when those in `before` have been used: it lies in the target's
subtree, has not been used, and neither has a node from there that encloses it, the target apart. -/
def Takes (m : Match) (f : Forest) (before : List NodeId) (n : NodeId) : Prop :=
  f.encloses m.target n = true ∧ n ∉ before ∧
    ∀ k ∈ before, k ≠ m.target → f.encloses m.target k = true → f.encloses k n = false

instance (m : Match) (f : Forest) (before : List NodeId) (n : NodeId) :
    Decidable (m.Takes f before n) :=
  inferInstanceAs (Decidable (_ ∧ _))

/-- The nodes that have been moved when one more has been used. -/
def takeUp (m : Match) (f : Forest) (moved : List NodeId) (n : NodeId) : List NodeId :=
  if m.Takes f moved n then moved ++ [n] else moved

/-- The nodes that are moved when some are used one after another. -/
def movedBy (m : Match) (f : Forest) (uses : List NodeId) : List NodeId :=
  uses.foldl (m.takeUp f) []

end Match

namespace TemplateNode

/-- How many nodes the node of a template is built as. -/
def width (m : Match) : TemplateNode → Nat
  | .node (.literal _) _ | .node .target _ => 1
  | .node (.capture name _) _ => (m.nodes name).length

mutual

/-- The nodes that stand for the uses, when a node of a template has been built as `roots`. -/
def standIns (m : Match) (g : Forest) (roots : List NodeId) : TemplateNode → List NodeId
  | .node (.literal _) beneath => standInsOf m g (roots.flatMap g.children) beneath
  | .node .target _ | .node (.capture _ _) _ => roots

/-- The nodes that stand for the uses, when some nodes of a template have been built as `roots`. -/
def standInsOf (m : Match) (g : Forest) (roots : List NodeId) : List TemplateNode → List NodeId
  | [] => []
  | first :: others =>
    standIns m g (roots.take (width m first)) first ++
      standInsOf m g (roots.drop (width m first)) others

end

end TemplateNode

/-- The nodes that stand for the template's uses, one for each, when it has been built as
`roots`. -/
def Template.standIns (t : Template) (m : Match) (g : Forest) (roots : List NodeId) :
    List NodeId :=
  TemplateNode.standInsOf m g roots t.roots

/-! ### Which uses move their node -/

namespace Match

variable {m : Match} {f : Forest} {before : List NodeId} {k n : NodeId}

theorem movedBy_concat (m : Match) (f : Forest) (before : List NodeId) (n : NodeId) :
    m.movedBy f (before ++ [n]) = m.takeUp f (m.movedBy f before) n := by
  rw [movedBy, List.foldl_append]
  rfl

theorem mem_takeUp_of_mem (h : k ∈ before) : k ∈ m.takeUp f before n := by
  unfold takeUp
  split
  · exact List.mem_append_left _ h
  · exact h

theorem movedBy_subset (m : Match) (f : Forest) (before : List NodeId) :
    m.movedBy f before ⊆ before := by
  induction before using List.reverseRecOn with
  | nil => exact List.Subset.refl _
  | append_singleton before n ih =>
      rw [movedBy_concat, takeUp]
      split
      · exact List.append_subset.mpr
          ⟨List.Subset.trans ih (List.subset_append_left _ _), List.subset_append_right _ _⟩
      · exact List.Subset.trans ih (List.subset_append_left _ _)

/-- A use of `k` stands in the way of one of `n` that would move it. -/
def Hides (m : Match) (f : Forest) (k n : NodeId) : Prop :=
  f.encloses m.target k = true ∧ (k = n ∨ k ≠ m.target ∧ f.encloses k n = true)

theorem takes_iff :
    m.Takes f before n ↔ f.encloses m.target n = true ∧ ∀ k ∈ before, ¬ m.Hides f k n := by
  constructor
  · rintro ⟨hwithin, hnot, hfree⟩
    refine ⟨hwithin, ?_⟩
    rintro k hk ⟨hkt, rfl | ⟨hne, hkn⟩⟩
    · exact hnot hk
    · exact Bool.false_ne_true ((hfree k hk hne hkt).symm.trans hkn)
  · rintro ⟨hwithin, hnone⟩
    refine ⟨hwithin, fun hmem => hnone n hmem ⟨hwithin, Or.inl rfl⟩, fun k hk hne hkt => ?_⟩
    rw [← Bool.not_eq_true]
    exact fun hkn => hnone k hk ⟨hkt, Or.inr ⟨hne, hkn⟩⟩

theorem Hides.of_within (hf : f.WellFormed) {j : NodeId} (hkn : m.Hides f k n)
    (hjk : m.Hides f j k) : m.Hides f j n := by
  obtain ⟨hjt, rfl | ⟨hne, hj⟩⟩ := hjk
  · exact hkn
  · rw [hf.encloses_iff] at hj
    obtain ⟨-, rfl | ⟨-, hk⟩⟩ := hkn
    · exact ⟨hjt, Or.inr ⟨hne, hf.encloses_iff.mpr hj⟩⟩
    · rw [hf.encloses_iff] at hk
      exact ⟨hjt, Or.inr ⟨hne, hf.encloses_iff.mpr (hk.trans hj)⟩⟩

/-- If a node that has been used stands in the way, then one does that has been moved. -/
theorem exists_moved_hides (hf : f.WellFormed) (hk : k ∈ before) (hkn : m.Hides f k n) :
    ∃ j ∈ m.movedBy f before, m.Hides f j n := by
  induction before using List.reverseRecOn generalizing k with
  | nil => cases hk
  | append_singleton before x ih =>
      rw [movedBy_concat]
      rcases List.mem_append.mp hk with hk | hk
      · obtain ⟨j, hj, hjn⟩ := ih hk hkn
        exact ⟨j, mem_takeUp_of_mem hj, hjn⟩
      · obtain rfl := List.mem_singleton.mp hk
        by_cases htakes : m.Takes f (m.movedBy f before) k
        · refine ⟨k, ?_, hkn⟩
          rw [takeUp, if_pos htakes]
          exact List.mem_append_right _ List.mem_cons_self
        · rw [takes_iff, not_and] at htakes
          have hhidden := htakes hkn.1
          push Not at hhidden
          obtain ⟨j, hj, hjk⟩ := hhidden
          exact ⟨j, mem_takeUp_of_mem hj, hkn.of_within hf hjk⟩

/-- **Only the nodes that have been moved matter** of those that have been used. -/
theorem takes_movedBy_iff (hf : f.WellFormed) :
    m.Takes f (m.movedBy f before) n ↔ m.Takes f before n := by
  rw [takes_iff, takes_iff]
  refine and_congr_right fun _ => ⟨fun hnone k hk hkn => ?_, fun hnone k hk => ?_⟩
  · obtain ⟨j, hj, hjn⟩ := exists_moved_hides hf hk hkn
    exact hnone j hj hjn
  · exact hnone k (m.movedBy_subset f before hk)

/-- **A node is moved exactly if one of its uses moves it.** -/
theorem mem_movedBy_iff (hf : f.WellFormed) {uses : List NodeId} :
    n ∈ m.movedBy f uses ↔
      ∃ before after, uses = before ++ n :: after ∧ m.Takes f before n := by
  induction uses using List.reverseRecOn with
  | nil => simp [movedBy]
  | append_singleton uses x ih =>
      rw [movedBy_concat]
      constructor
      · intro h
        by_cases htakes : m.Takes f (m.movedBy f uses) x
        · rw [takeUp, if_pos htakes, List.mem_append, List.mem_singleton] at h
          rcases h with h | rfl
          · obtain ⟨before, after, rfl, hn⟩ := ih.mp h
            exact ⟨before, after ++ [x], by simp, hn⟩
          · exact ⟨uses, [], rfl, (takes_movedBy_iff hf).mp htakes⟩
        · rw [takeUp, if_neg htakes] at h
          obtain ⟨before, after, rfl, hn⟩ := ih.mp h
          exact ⟨before, after ++ [x], by simp, hn⟩
      · rintro ⟨before, after, hsplit, hn⟩
        rcases List.eq_nil_or_concat' after with rfl | ⟨after, y, rfl⟩
        · obtain ⟨rfl, hx⟩ := List.append_inj' hsplit rfl
          obtain rfl := List.singleton_inj.mp hx
          rw [takeUp, if_pos ((takes_movedBy_iff hf).mpr hn)]
          exact List.mem_append_right _ List.mem_cons_self
        · rw [← List.cons_append, ← List.append_assoc] at hsplit
          obtain ⟨rfl, -⟩ := List.append_inj' hsplit rfl
          exact mem_takeUp_of_mem (ih.mpr ⟨before, after, rfl, hn⟩)

end Match

namespace Forest

/-- Taking a node out matters only within the nodes that it lies beneath. -/
theorem within_detach_iff {f : Forest} {a n t : NodeId} (hnot : ¬ f.Beneath t a) :
    (f.detach t).Within n a ↔ f.Within n a := by
  constructor
  · exact Relation.ReflTransGen.mono (fun _ _ => up_of_up_detach) n a
  · intro h
    induction h using Relation.ReflTransGen.head_induction_on with
    | refl => exact Within.refl a
    | @head n p hp hpa ih =>
        have hne : n ≠ t := by
          rintro rfl
          exact hnot (Relation.TransGen.head' hp hpa)
        refine Within.of_parent ?_ ih
        rw [parent_detach, if_neg hne]
        exact hp

/-- In the place of each child stands its image, or nothing if it has gone. -/
theorem flatMap_eq_map_filter {α β : Type} {p : α → Bool} {images : α → List β} {image : α → β}
    (l : List α) (hgone : ∀ a ∈ l, p a = false → images a = [])
    (hstays : ∀ a ∈ l, p a = true → images a = [image a]) :
    l.flatMap images = (l.filter p).map image := by
  induction l with
  | nil => rfl
  | cons a l ih =>
      rw [List.forall_mem_cons] at hgone hstays
      rw [List.flatMap_cons, ih hgone.2 hstays.2, List.filter_cons]
      cases hp : p a with
      | false => rw [hgone.1 hp]; rfl
      | true => rw [hstays.1 hp]; rfl

end Forest

namespace Instance

variable {m : Match} {f g : Forest} {b b' b'' : Instance} {k n p r : NodeId}
  {roots roots' uses uses' moved moved' moved'' : List NodeId}

/-! ### What can be told from the forest of before -/

/-- The target has been taken out of `f`, and then an instance has been begun. -/
structure Begun (f : Forest) (m : Match) (b : Instance) : Prop where
  wellFormed : f.WellFormed
  target_lt : m.target < f.size
  adds : ∃ roots, Adds m (fun _ => True) { forest := f.detach m.target } b roots

theorem adds_newNode {used : NodeId → Prop} (hb : b.forest.WellFormed) (text : String) :
    Adds m used b { b with forest := (b.forest.newNode text).1 } [] where
  wellFormed := hb.newNode text
  size_le := Nat.le_of_lt (Forest.lt_size_newNode b.forest text)
  moved_subset := List.Subset.refl _
  moves := by intro n hn; exact absurd hn.1 hn.2
  value := by
    intro n hn
    rw [Forest.value_newNode, if_neg (Nat.ne_of_lt hn)]
  parent := by
    intro n _ _
    exact Forest.parent_newNode b.forest text n
  children := by
    intro n _
    rw [Forest.children_newNode]
    exact (filter_not_moves rfl _).symm
  nodup := List.nodup_nil
  lt_size := by simp
  top := by simp
  fresh := by simp

namespace Begun

theorem start (hf : f.WellFormed) (ht : m.target < f.size) :
    Begun f m { forest := f.detach m.target } :=
  ⟨hf, ht, [], Adds.nil (hf.detach m.target)⟩

theorem further (hb : Begun f m b) (h : Adds m (fun _ => True) b b' roots) : Begun f m b' := by
  obtain ⟨earlier, hadds⟩ := hb.adds
  refine ⟨hb.wellFormed, hb.target_lt, earlier ++ roots, ?_⟩
  refine hadds.append h (hb.wellFormed.detach m.target) ?_
  rw [Forest.size_detach]
  exact hb.target_lt

theorem forest (hb : Begun f m b) : b.forest.WellFormed := by
  obtain ⟨_, hadds⟩ := hb.adds
  exact hadds.wellFormed

theorem size_le (hb : Begun f m b) : f.size ≤ b.forest.size := by
  obtain ⟨_, hadds⟩ := hb.adds
  exact Nat.le_trans (Nat.le_of_eq (Forest.size_detach f m.target).symm) hadds.size_le

theorem lt_size (hb : Begun f m b) : m.target < b.forest.size :=
  Nat.lt_of_lt_of_le hb.target_lt hb.size_le

theorem moves_iff (b : Instance) (n : NodeId) :
    Moves { forest := f.detach m.target } b n ↔ n ∈ b.moved :=
  and_iff_left List.not_mem_nil

theorem within_target (hb : Begun f m b) (hn : n ∈ b.moved) :
    (f.detach m.target).Within n m.target := by
  obtain ⟨_, hadds⟩ := hb.adds
  exact (hadds.moves n ((moves_iff b n).mpr hn)).2

theorem parent (hb : Begun f m b) (hn : n < f.size) (hstays : n ∉ b.moved) :
    b.forest.parent n = (f.detach m.target).parent n := by
  obtain ⟨_, hadds⟩ := hb.adds
  refine hadds.parent n ?_ fun hmove => hstays ((moves_iff b n).mp hmove)
  rwa [Forest.size_detach]

theorem children (hb : Begun f m b) (hn : n < f.size) :
    b.forest.children n = ((f.detach m.target).children n).filter (· ∉ b.moved) := by
  obtain ⟨_, hadds⟩ := hb.adds
  rw [hadds.children n (by rwa [Forest.size_detach])]
  refine List.filter_congr fun c _ => ?_
  rw [decide_eq_decide, moves_iff]

theorem value (hb : Begun f m b) (hn : n < f.size) :
    b.forest.value n = (f.detach m.target).value n := by
  obtain ⟨_, hadds⟩ := hb.adds
  exact hadds.value n (by rwa [Forest.size_detach])

/-- What is new lies within new nodes only, and so within the target no longer. -/
theorem not_within_of_new (hb : Begun f m b) (hn : f.size ≤ n) :
    ¬ b.forest.Within n m.target := by
  obtain ⟨_, hadds⟩ := hb.adds
  intro hw
  have hle := hadds.size_le_of_within (hb.wellFormed.detach m.target)
    (Nat.le_trans (Nat.le_of_eq (Forest.size_detach f m.target)) hn) hw
  rw [Forest.size_detach] at hle
  exact Nat.not_lt.mpr hle hb.target_lt

/-- A node that has been moved no longer lies within the target, unless it is the target. -/
theorem not_within_of_moved (hb : Begun f m b) (hn : n ∈ b.moved) (hne : n ≠ m.target) :
    ¬ b.forest.Within n m.target := by
  intro hw
  obtain ⟨_, hadds⟩ := hb.adds
  rcases Forest.within_cases hw with heq | ⟨p, hp, hpt⟩
  · exact hne heq
  · refine hb.not_within_of_new ?_ hpt
    have hle := hadds.size_le_parent (hb.wellFormed.detach m.target)
      (Or.inr ((moves_iff b n).mpr hn)) hp
    rwa [Forest.size_detach] at hle

/-- **What still lies within the target** lay there from the first, and no node that encloses it has
been moved, the target apart. -/
theorem within_target_iff (hb : Begun f m b) (hn : n < f.size) :
    b.forest.Within n m.target ↔ (f.detach m.target).Within n m.target ∧
      ∀ k ∈ b.moved, k ≠ m.target → ¬ (f.detach m.target).Within n k := by
  have htop : (f.detach m.target).parent m.target = none := by
    rw [Forest.parent_detach, if_pos rfl]
  constructor
  · intro hw
    induction hw using Relation.ReflTransGen.head_induction_on with
    | refl =>
        refine ⟨Forest.Within.refl _, fun k _ hne hw => ?_⟩
        exact hne (Forest.eq_of_within_of_parent_none htop hw).symm
    | @head n p hp hpt ih =>
        have hp' : b.forest.parent n = some p := hp
        have hstays : n ∉ b.moved := by
          intro hmem
          by_cases hne : n = m.target
          · -- the target is above all that lies within it
            subst hne
            exact hb.forest.acyclic m.target (Relation.TransGen.head' hp hpt)
          · exact hb.not_within_of_moved hmem hne (Forest.Within.of_parent hp hpt)
        have hup : (f.detach m.target).parent n = some p := (hb.parent hn hstays).symm.trans hp'
        have hlt : p < f.size := by
          have := (hb.wellFormed.detach m.target).parent_lt_size hup
          rwa [Forest.size_detach] at this
        obtain ⟨hpt', hnone⟩ := ih hlt
        refine ⟨Forest.Within.of_parent hup hpt', fun k hk hne hnk => ?_⟩
        rcases Forest.within_cases hnk with rfl | ⟨q, hq, hqk⟩
        · exact hstays hk
        · obtain rfl := Option.some.inj (hq.symm.trans hup)
          exact hnone k hk hne hqk
  · rintro ⟨hw, hnone⟩
    induction hw using Relation.ReflTransGen.head_induction_on with
    | refl => exact Forest.Within.refl _
    | @head n p hp hpt ih =>
        have hstays : n ∉ b.moved := by
          intro hmem
          by_cases hne : n = m.target
          · subst hne
            exact absurd (htop.symm.trans hp) (by simp)
          · exact hnone n hmem hne (Forest.Within.refl n)
        have hlt : p < f.size := by
          have := (hb.wellFormed.detach m.target).parent_lt_size hp
          rwa [Forest.size_detach] at this
        refine Forest.Within.of_parent ((hb.parent hn hstays).trans hp) (ih hlt ?_)
        exact fun k hk hne hw => hnone k hk hne (Forest.Within.of_parent hp hw)

/-- **Whether a use moves its node can be told from the forest of before.** -/
theorem takes_iff (hb : Begun f m b) :
    (b.forest.encloses m.target n && !b.moved.contains n) = true ↔ m.Takes f b.moved n := by
  have hf := hb.wellFormed
  rw [Bool.and_eq_true, hb.forest.encloses_iff, Bool.not_eq_true', ← Bool.not_eq_true,
    List.contains_iff_mem]
  by_cases hn : n < f.size
  · rw [hb.within_target_iff hn, Forest.within_detach_iff (hf.acyclic m.target), and_assoc,
      Match.Takes, hf.encloses_iff]
    refine and_congr_right fun _ => ?_
    rw [and_comm]
    refine and_congr_right fun _ => forall₂_congr fun k hk => forall_congr' fun hne => ?_
    have hkt : f.Within k m.target :=
      (Forest.within_detach_iff (hf.acyclic m.target)).mp (hb.within_target hk)
    have hnot : ¬ f.Beneath m.target k := by
      intro hbeneath
      exact hf.acyclic m.target (Relation.TransGen.trans_left hbeneath hkt)
    rw [Forest.within_detach_iff hnot, ← hf.encloses_iff, Bool.not_eq_true, hf.encloses_iff]
    exact ⟨fun h _ => h, fun h => h hkt⟩
  · have hnew : ¬ b.forest.Within n m.target := hb.not_within_of_new (Nat.le_of_not_lt hn)
    refine ⟨fun h => absurd h.1 hnew, fun h => absurd ?_ hn⟩
    exact Forest.lt_size_of_within hb.target_lt (hf.encloses_iff.mp h.1)

/-- **What a node of before looks like by now**: what it looked like, without the nodes beneath it
that have been moved. -/
theorem tree_eq (hb : Begun f m b) (hn : n < f.size) :
    [b.forest.tree n] = (f.detach m.target).without b.moved n := by
  have hf := hb.wellFormed.detach m.target
  -- for every node within `n` that stays, and for `n` itself
  have hall : ∀ x, (f.detach m.target).Within x n → (x ∉ b.moved ∨ x = n) →
      (f.detach m.target).substitute
        (fun k => if k ∈ b.moved ∧ k ≠ n then some [] else none) x = [b.forest.tree x] := by
    intro x
    induction x using hf.down_induction with
    | step x ih =>
        intro hx hstays
        have hlt : x < f.size := by
          have := Forest.lt_size_of_within (by rwa [Forest.size_detach]) hx
          rwa [Forest.size_detach] at this
        have hnone : ¬ (x ∈ b.moved ∧ x ≠ n) := by tauto
        have hbelow : ∀ c ∈ (f.detach m.target).children x,
            (f.detach m.target).Within c n ∧ c ≠ n := by
          intro c hc
          have hup := (hf.parent_iff c x).mpr hc
          refine ⟨Forest.Within.of_parent hup hx, ?_⟩
          rintro rfl
          exact hf.acyclic c (Relation.TransGen.head' hup hx)
        rw [hf.substitute_eq, if_neg hnone, Option.getD_none, hb.forest.tree_eq, hb.value hlt,
          hb.children hlt]
        congr 2
        refine Forest.flatMap_eq_map_filter _ (fun c hc hgone => ?_) fun c hc hc' => ?_
        · rw [decide_eq_false_iff_not, not_not] at hgone
          rw [hf.substitute_eq, if_pos ⟨hgone, (hbelow c hc).2⟩]
          rfl
        · rw [decide_eq_true_eq] at hc'
          exact ih c hc (hbelow c hc).1 (Or.inl hc')
  exact (hall n (Forest.Within.refl n) (Or.inr rfl)).symm

end Begun

/-! ### One use after another -/

/-- Nodes are used one after another, and each use is stood for by a node of `g`: by the used node
itself if it is moved, and otherwise by a new one that looks like it. -/
inductive Uses (m : Match) (f g : Forest) :
    List NodeId → List NodeId → List NodeId → List NodeId → Prop
  | nil (moved : List NodeId) : Uses m f g moved [] [] moved
  | move {n : NodeId} {moved moved' uses standIns : List NodeId} (takes : m.Takes f moved n)
      (rest : Uses m f g (moved ++ [n]) uses standIns moved') :
      Uses m f g moved (n :: uses) (n :: standIns) moved'
  | clone {n r : NodeId} {moved moved' uses standIns : List NodeId} (stays : ¬ m.Takes f moved n)
      (new : f.size ≤ r) (look : [g.tree r] = (f.detach m.target).without moved n)
      (rest : Uses m f g moved uses standIns moved') :
      Uses m f g moved (n :: uses) (r :: standIns) moved'

namespace Uses

variable {standIns standIns' : List NodeId}

theorem append (h : Uses m f g moved uses standIns moved')
    (h' : Uses m f g moved' uses' standIns' moved'') :
    Uses m f g moved (uses ++ uses') (standIns ++ standIns') moved'' := by
  induction h with
  | nil moved => exact h'
  | move takes _ ih => exact .move takes (ih h')
  | clone stays new look _ ih => exact .clone stays new look (ih h')

/-- The uses that move their nodes are told by `takeUp`. -/
theorem moved_eq (h : Uses m f g moved uses standIns moved') :
    moved' = uses.foldl (m.takeUp f) moved := by
  induction h with
  | nil moved => rfl
  | move takes _ ih => rw [ih, List.foldl_cons, Match.takeUp, if_pos takes]
  | clone stays _ _ _ ih => rw [ih, List.foldl_cons, Match.takeUp, if_neg stays]

/-- What stands for a use that comes after those in `before`. -/
theorem stands (h : Uses m f g moved uses standIns moved') {before after : List NodeId}
    (hsplit : uses = before ++ n :: after) :
    ∃ r, standIns[before.length]? = some r ∧
      (m.Takes f (before.foldl (m.takeUp f) moved) n → r = n) ∧
      (¬ m.Takes f (before.foldl (m.takeUp f) moved) n → f.size ≤ r ∧
        [g.tree r] = (f.detach m.target).without (before.foldl (m.takeUp f) moved) n) := by
  induction h generalizing before with
  | nil moved => simp at hsplit
  | @move k moved moved' uses standIns takes rest ih =>
      cases before with
      | nil =>
          obtain ⟨rfl, -⟩ := List.cons.inj hsplit
          exact ⟨k, rfl, fun _ => rfl, fun hstays => absurd takes hstays⟩
      | cons x before =>
          obtain ⟨rfl, hrest⟩ := List.cons.inj hsplit
          rw [List.foldl_cons, Match.takeUp, if_pos takes]
          exact ih hrest
  | @clone k r moved moved' uses standIns stays new look rest ih =>
      cases before with
      | nil =>
          obtain ⟨rfl, -⟩ := List.cons.inj hsplit
          exact ⟨r, rfl, fun htakes => absurd htakes stays, fun _ => ⟨new, look⟩⟩
      | cons x before =>
          obtain ⟨rfl, hrest⟩ := List.cons.inj hsplit
          rw [List.foldl_cons, Match.takeUp, if_neg stays]
          exact ih hrest

end Uses

/-! ### What has been built stays as it was built -/

/-- The nodes made from the one moment to the other have in `g` the texts and children that they
were given. -/
structure Settled (b b' : Instance) (g : Forest) : Prop where
  wellFormed : g.WellFormed
  value : ∀ n, b.forest.size ≤ n → n < b'.forest.size → g.value n = b'.forest.value n
  children : ∀ n, b.forest.size ≤ n → n < b'.forest.size → g.children n = b'.forest.children n

/-- What a new node has as a child is new or has been moved. -/
theorem Adds.fresh_of_child {used : NodeId → Prop} (h : Adds m used b b' roots)
    (hb : b.forest.WellFormed) (hn : b.forest.size ≤ n) {c : NodeId}
    (hc : c ∈ b'.forest.children n) : Fresh b b' c := by
  rw [← h.wellFormed.parent_iff] at hc
  by_contra hfresh
  rw [Fresh, not_or] at hfresh
  rw [h.parent c (Nat.lt_of_not_le hfresh.1) hfresh.2] at hc
  exact Nat.not_lt.mpr hn (hb.parent_lt_size hc)

namespace Settled

theorem first {used : NodeId → Prop} (hg : Settled b b'' g) (h : Adds m used b b' roots)
    (h' : Adds m used b' b'' roots') (hb : b.forest.WellFormed) (ht : m.target < b.forest.size) :
    Settled b b' g where
  wellFormed := hg.wellFormed
  value := by
    intro n hn hlt
    rw [hg.value n hn (Nat.lt_of_lt_of_le hlt h'.size_le), h'.value n hlt]
  children := by
    intro n hn hlt
    rw [hg.children n hn (Nat.lt_of_lt_of_le hlt h'.size_le), h'.children n hlt,
      List.filter_eq_self]
    intro c hc
    rw [decide_eq_true_eq]
    exact h.not_moves_of_fresh h' hb ht (h.fresh_of_child hb hn hc)

theorem second {used : NodeId → Prop} (hg : Settled b b'' g) (h : Adds m used b b' roots) :
    Settled b' b'' g where
  wellFormed := hg.wellFormed
  value := by
    intro n hn
    exact hg.value n (Nat.le_trans h.size_le hn)
  children := by
    intro n hn
    exact hg.children n (Nat.le_trans h.size_le hn)

/-- Beneath a literal everything is as it was built, and the literal has that as its children. -/
theorem literal {used : NodeId → Prop} {text : String}
    (hg : Settled b { b' with forest := b'.forest.pushChildren b.forest.size roots } g)
    (h : Adds m used { b with forest := (b.forest.newNode text).1 } b' roots)
    (ht : m.target < b.forest.size) :
    Settled { b with forest := (b.forest.newNode text).1 } b' g ∧
      g.children b.forest.size = roots := by
  obtain ⟨hloose, -, hchildren⟩ := h.loose ht
  have hlt := Nat.lt_of_lt_of_le (Forest.lt_size_newNode b.forest text) h.size_le
  have hhung := Forest.Loose.hung_pushChildren h.wellFormed hlt hloose
  have hbelow : ∀ n, (b.forest.newNode text).1.size ≤ n → b.forest.size < n := by
    intro n hn
    exact Nat.lt_of_lt_of_le (Forest.lt_size_newNode b.forest text) hn
  refine ⟨⟨hg.wellFormed, fun n hn hlt' => ?_, fun n hn hlt' => ?_⟩, ?_⟩
  · rw [hg.value n (Nat.le_of_lt (hbelow n hn)) (hhung.size ▸ hlt'), hhung.value]
  · rw [hg.children n (Nat.le_of_lt (hbelow n hn)) (hhung.size ▸ hlt'),
      hhung.children n (Nat.ne_of_gt (hbelow n hn))]
  · rw [hg.children _ (Nat.le_refl _) (hhung.size ▸ hlt), hhung.children_self, hchildren,
      List.nil_append, List.append_nil]

end Settled

/-! ### The parts of an instance -/

theorem uses_use (hb : Begun f m b) (hn : n < f.size) (hg : Settled b (b.use m n).1 g) :
    Uses m f g b.moved [n] [(b.use m n).2] (b.use m n).1.moved := by
  have hadds : Adds m (fun _ => True) b (b.use m n).1 _ := adds_use hb.forest hb.lt_size trivial
  by_cases htakes : m.Takes f b.moved n
  · rw [use, if_pos (hb.takes_iff.mpr htakes)]
    exact .move htakes (.nil _)
  · have hclone := Forest.planted_deepClone hb.forest n
    have hroot : (b.forest.deepClone n).2 = b.forest.size := Forest.plant_snd b.forest _
    rw [use, if_neg fun h => htakes (hb.takes_iff.mp h)] at hg hadds ⊢
    show Uses m f g b.moved [n] [(b.forest.deepClone n).2] b.moved
    rw [hroot]
    -- beneath the clone's root there are new nodes only, as nothing has been moved there
    have hnew : ∀ x, (b.forest.deepClone n).1.Within x b.forest.size →
        b.forest.size ≤ x ∧ x < (b.forest.deepClone n).1.size := by
      intro x hx
      refine ⟨?_, Forest.lt_size_of_within hclone.lt_size hx⟩
      by_contra hold
      obtain ⟨y, hy, -⟩ := hadds.exists_moves_of_within hb.forest (Nat.lt_of_not_le hold)
        (Nat.le_refl _) hx
      exact hy.2 hy.1
    have hlook : g.tree b.forest.size = b.forest.tree n := by
      rw [← hclone.tree_root]
      exact hclone.wellFormed.tree_congr hg.wellFormed _
        (fun x hx => hg.value x (hnew x hx).1 (hnew x hx).2)
        fun x hx => hg.children x (hnew x hx).1 (hnew x hx).2
    exact .clone htakes hb.size_le (hlook ▸ hb.tree_eq hn) (.nil _)

theorem uses_useAll (ns : List NodeId) :
    ∀ {b : Instance}, Begun f m b → (∀ n ∈ ns, n < f.size) → Settled b (b.useAll m ns).1 g →
      Uses m f g b.moved ns (b.useAll m ns).2 (b.useAll m ns).1.moved := by
  induction ns with
  | nil => intro b _ _ _; exact .nil _
  | cons n ns ih =>
      intro b hb huses hg
      rw [List.forall_mem_cons] at huses
      have huse : Adds m (fun _ => True) b (b.use m n).1 _ :=
        adds_use hb.forest hb.lt_size trivial
      have hnext := hb.further huse
      have hrest : Adds m (fun _ => True) (b.use m n).1 ((b.use m n).1.useAll m ns).1 _ :=
        adds_useAll ns hnext.forest hnext.lt_size fun _ _ => trivial
      have hfirst := uses_use hb huses.1 (hg.first huse hrest hb.forest hb.lt_size)
      exact hfirst.append (ih hnext huses.2 (hg.second huse))

theorem length_node (m : Match) (b : Instance) (t : TemplateNode) :
    (node m b t).2.length = t.width m := by
  rcases t with ⟨text | ⟨name, _⟩ | _, beneath⟩
  · rw [node]; rfl
  · rw [node]
    exact length_useAll (m.nodes name) b
  · rw [node]; rfl

mutual

theorem uses_node : ∀ (t : TemplateNode) {b : Instance}, Begun f m b →
    (∀ n ∈ t.uses m, n < f.size) → Settled b (node m b t).1 g →
    Uses m f g b.moved (t.uses m) (t.standIns m g (node m b t).2) (node m b t).1.moved
  | .node (.literal text) beneath, b, hb, huses, hg => by
      rw [TemplateNode.uses] at huses
      rw [node] at hg
      rw [node, TemplateNode.uses, TemplateNode.standIns]
      have hnew := hb.further (adds_newNode hb.forest text)
      have hbuilt : Adds m (fun _ => True) { b with forest := (b.forest.newNode text).1 } _ _ :=
        adds_nodes beneath hnew.forest hnew.lt_size fun _ _ => trivial
      obtain ⟨hg', hchildren⟩ := hg.literal hbuilt hb.lt_size
      have hbeneath := uses_nodes beneath hnew huses hg'
      rw [List.flatMap_singleton, show g.children (b.forest.newNode text).2 = _ from hchildren]
      exact hbeneath
  | .node .target _, b, hb, huses, hg => by
      rw [TemplateNode.uses, List.forall_mem_singleton] at huses
      rw [node] at hg ⊢
      exact uses_use hb huses hg
  | .node (.capture name _) _, b, hb, huses, hg => by
      rw [TemplateNode.uses] at huses
      rw [node] at hg ⊢
      exact uses_useAll (m.nodes name) hb huses hg

theorem uses_nodes : ∀ (ts : List TemplateNode) {b : Instance}, Begun f m b →
    (∀ n ∈ TemplateNode.usesOf m ts, n < f.size) → Settled b (nodes m b ts).1 g →
    Uses m f g b.moved (TemplateNode.usesOf m ts)
      (TemplateNode.standInsOf m g (nodes m b ts).2 ts) (nodes m b ts).1.moved
  | [], b, _, _, _ => by
      rw [nodes, TemplateNode.usesOf, TemplateNode.standInsOf]
      exact .nil _
  | first :: others, b, hb, huses, hg => by
      rw [TemplateNode.usesOf, List.forall_mem_append] at huses
      rw [nodes] at hg
      have hfirst : Adds m (fun _ => True) b (node m b first).1 _ :=
        adds_node first hb.forest hb.lt_size fun _ _ => trivial
      have hnext := hb.further hfirst
      have hothers : Adds m (fun _ => True) (node m b first).1 _ _ :=
        adds_nodes others hnext.forest hnext.lt_size fun _ _ => trivial
      rw [nodes, TemplateNode.usesOf, TemplateNode.standInsOf,
        List.take_left' (length_node m b first), List.drop_left' (length_node m b first)]
      exact (uses_node first hb huses.1 (hg.first hfirst hothers hb.forest hb.lt_size)).append
        (uses_nodes others hnext huses.2 (hg.second hfirst))

end

end Instance

end TreeRules
