/-
Where nodes stand after one has been moved.

To move a node is to take it out of where it stands and to put it in somewhere else, and the place
where it is put in is counted without it.  So whether it comes from another node or from the same
one makes no difference to what is said: the other children in their order, with the node among
them.  A move beneath the node itself is none, and that is the only one: what the guard looks at is
the chain of parents, which goes through a node exactly if one lies within it.

Putting a node in the place of a child moves it too, and leaves the child by itself.  The child is
looked for again after the node has been taken out, and is still there: it is another node than the
one taken out.  So it happens as a whole or not at all.  Where the node stood beneath the child, it
is missing from there afterwards, with all that lies beneath it, and nothing else is.
-/
import TreeRules.Proofs.Forest.Operation
import TreeRules.Proofs.Forest.Preorder
import TreeRules.Proofs.Forest.Records

namespace TreeRules.Forest

variable {f g : Forest} {c n old p q : NodeId} {index place : Nat}

/-- The second forest is well formed and has the nodes of the first, with their texts and their
records, and nothing has been reported: where nodes stand is all that may differ. -/
structure Rearranged (f g : Forest) : Prop extends f.Silent g where
  wellFormed : g.WellFormed
  size : g.size = f.size
  value : ∀ n, g.value n = f.value n

/-- `c` has become a child of `p`.  The node that had it as a child before has it no longer, and
nodes other than these two have the children that they had. -/
structure Brought (f g : Forest) (p c : NodeId) : Prop extends f.Rearranged g where
  parent_self : g.parent c = some p
  children_former : ∀ q, q ≠ p → f.parent c = some q →
    g.children q = (f.children q).filter (· != c)
  children_other : ∀ q, q ≠ p → f.parent c ≠ some q → g.children q = f.children q

/-- `c` has come to stand at that place among the other children of `p`, and nothing else has
changed. -/
structure Moved (f g : Forest) (p c : NodeId) (place : Nat) : Prop extends f.Brought g p c where
  children_self : g.children p = ((f.children p).filter (· != c)).insertIdx place c
  parent_other : ∀ n, n ≠ c → g.parent n = f.parent n

/-- `c` has come to stand where `old` stood, at `index` among the children of `p`.  `old` has no
parent now, and beneath it everything is as it was, except that `c` is not there if it was.  Nothing
else has changed. -/
structure Exchanged (f g : Forest) (p : NodeId) (index : Nat) (old c : NodeId) : Prop
    extends f.Brought g p c where
  children_self : g.children p = ((f.children p).take index).filter (· != c) ++
    c :: ((f.children p).drop (index + 1)).filter (· != c)
  parent_old : g.parent old = none
  parent_other : ∀ n, n ≠ c → n ≠ old → g.parent n = f.parent n
  preorder_old : g.preorder old = (f.preorder old).filter fun n => !f.encloses c n
  tree_old : [g.tree old] = f.substitute (fun n => if n = c then some [] else none) old

/-- Only the parent of a node has it among its children. -/
theorem WellFormed.filter_children_of_parent_ne (hf : f.WellFormed) (h : f.parent c ≠ some q) :
    (f.children q).filter (· != c) = f.children q :=
  filter_ne_of_not_mem fun hmem => h ((hf.parent_iff c q).mpr hmem)

theorem Rearranged.brought (hg : f.Rearranged g) (hf : f.WellFormed) (hparent : g.parent c = some p)
    (hchildren : ∀ q, q ≠ p → g.children q = (f.children q).filter (· != c)) :
    f.Brought g p c where
  toRearranged := hg
  parent_self := hparent
  children_former := by
    intro q hq _
    exact hchildren q hq
  children_other := by
    intro q hq hother
    rw [hchildren q hq, hf.filter_children_of_parent_ne hother]

/-! ### Moving a node -/

theorem moved_insertChild (hf : f.WellFormed) (hp : p < f.size) (hc : c < f.size)
    (hout : ¬ f.Within p c) (index : Nat) :
    f.Moved (f.insertChild p index c) p c (min index ((f.children p).filter (· != c)).length) := by
  have hrearranged : f.Rearranged (f.insertChild p index c) :=
    { silent_insertChild f p index c with
      wellFormed := hf.insertChild hc hp index
      size := size_insertChild f p index c
      value := value_insertChild f p index c }
  refine ⟨hrearranged.brought hf ?_ fun q hq => ?_, ?_, fun n hn => ?_⟩
  · rw [parent_insertChild hf hc hout, if_pos rfl]
  · rw [children_insertChild hf hout hp, if_neg hq]
  · rw [children_insertChild hf hout hp, if_pos rfl]
  · rw [parent_insertChild hf hc hout, if_neg hn]

/-- The end is counted with the child, where it is one already, and still is the end without it. -/
theorem moved_pushChild (hf : f.WellFormed) (hp : p < f.size) (hc : c < f.size)
    (hout : ¬ f.Within p c) :
    f.Moved (f.pushChild p c) p c ((f.children p).filter (· != c)).length := by
  have hmoved := moved_insertChild hf hp hc hout (f.children p).length
  rwa [Nat.min_eq_right (List.length_filter_le _ _)] at hmoved

/-- **A move moves one node.**  Beneath itself a node is not moved.  Else it comes to stand at the
index, or at the end if that is less, among the other children of its new parent, whether it was one
of them or not. -/
theorem insertChild_moves_one (hf : f.WellFormed) (hp : p < f.size) (hc : c < f.size)
    (index : Nat) :
    (f.Within p c → f.insertChild p index c = f ∧ f.pushChild p c = f) ∧
      (¬ f.Within p c →
        f.Moved (f.insertChild p index c) p c
          (min index ((f.children p).filter (· != c)).length) ∧
        f.Moved (f.pushChild p c) p c ((f.children p).filter (· != c)).length ∧
        (f.pushChild p c).children p = (f.children p).filter (· != c) ++ [c]) := by
  constructor
  · intro hin
    exact ⟨insertChild_of_within hf hin index, insertChild_of_within hf hin _⟩
  · intro hout
    have hpush := moved_pushChild hf hp hc hout
    refine ⟨moved_insertChild hf hp hc hout index, hpush, ?_⟩
    rw [hpush.children_self, List.insertIdx_length_self]

/-- Three nodes beneath another, the first of which has a node beneath it. -/
def firstHasChild : Forest :=
  (Document.ofTree (.node "r" [.node "a" [.node "x" []], .node "b" [], .node "c" []])).forest

theorem wellFormed_firstHasChild : firstHasChild.WellFormed := wellFormed_ofTree _

theorem insertChild_moves_one_firstHasChild :
    (firstHasChild.insertChild 0 1 1).children 0 = [3, 1, 4] ∧
      (firstHasChild.pushChild 0 1).children 0 = [3, 4, 1] ∧
      firstHasChild.insertChild 2 0 1 = firstHasChild := by
  have hf := wellFormed_firstHasChild
  have hout : ¬ firstHasChild.Within 0 1 := by
    rw [← hf.encloses_iff]
    decide +kernel
  have hin : firstHasChild.Within 2 1 := by
    rw [← hf.encloses_iff]
    decide +kernel
  have hmoves := insertChild_moves_one hf (p := 0) (c := 1) (by decide +kernel) (by decide +kernel) 1
  have hstays := insertChild_moves_one hf (p := 2) (c := 1) (by decide +kernel) (by decide +kernel) 0
  obtain ⟨hinsert, -, hpush⟩ := hmoves.2 hout
  refine ⟨?_, ?_, (hstays.1 hin).1⟩
  · rw [hinsert.children_self]
    decide +kernel
  · rw [hpush]
    decide +kernel

/-! ### A subtree that a node is taken out of -/

/-- Instead of leaving a member out one may let nothing come of it. -/
theorem flatMap_filter_ne {β : Type} {F G : NodeId → List β} {l : List NodeId}
    (hother : ∀ d ∈ l, d ≠ c → F d = G d) (hself : c ∈ l → G c = []) :
    (l.filter (· != c)).flatMap F = l.flatMap G := by
  induction l with
  | nil => rfl
  | cons d l ih =>
      have hrest := ih (fun e he => hother e (List.mem_cons_of_mem d he))
        fun hmem => hself (List.mem_cons_of_mem d hmem)
      rw [List.flatMap_cons]
      by_cases hd : d = c
      · subst hd
        rw [List.filter_cons, if_neg (by simp), hself List.mem_cons_self, hrest, List.nil_append]
      · rw [List.filter_cons, if_pos (bne_iff_ne.mpr hd), List.flatMap_cons,
          hother d List.mem_cons_self hd, hrest]

/-- Outside a subtree, no child of a node lies in it but the subtree's root. -/
theorem WellFormed.not_within_child (hf : f.WellFormed) (hn : ¬ f.Within n c)
    (hd : q ∈ f.children n) (hne : q ≠ c) : ¬ f.Within q c := by
  intro hin
  rcases within_cases hin with heq | ⟨r, hr, hrc⟩
  · exact hne heq
  · obtain rfl := Option.some.inj (hr.symm.trans ((hf.parent_iff q n).mpr hd))
    exact hn hrc

section TakenOut

variable (hf : f.WellFormed) (hg : g.WellFormed) (hn : ¬ f.Within n c)
  (hchildren : ∀ x, f.Within x n → g.children x = (f.children x).filter (· != c))

include hf hg hn hchildren

theorem preorder_of_taken_out :
    g.preorder n = (f.preorder n).filter fun x => !f.encloses c x := by
  induction n using hf.down_induction with
  | step n ih =>
      have hself : (!f.encloses c n) = true := by
        rw [Bool.not_eq_true', ← Bool.not_eq_true, hf.encloses_iff]
        exact hn
      rw [hg.preorder_eq, hf.preorder_eq, hchildren n (Within.refl n),
        List.filter_cons, if_pos hself, List.filter_flatMap]
      congr 1
      refine flatMap_filter_ne (fun d hd hne => ?_) fun _ => ?_
      · refine ih d hd (hf.not_within_child hn hd hne) fun x hx => ?_
        exact hchildren x (hx.tail ((hf.parent_iff d n).mpr hd))
      · refine List.filter_eq_nil_iff.mpr fun x hx => ?_
        rw [hf.mem_preorder_iff, ← hf.encloses_iff] at hx
        simp [hx]

theorem tree_of_taken_out (hvalue : ∀ x, g.value x = f.value x) :
    [g.tree n] = f.substitute (fun x => if x = c then some [] else none) n := by
  induction n using hf.down_induction with
  | step n ih =>
      have hnc : n ≠ c := fun heq => hn (heq ▸ Within.refl n)
      rw [hf.substitute_eq, if_neg hnc, Option.getD_none, hg.tree_eq, hvalue,
        hchildren n (Within.refl n), List.map_eq_flatMap]
      congr 2
      refine flatMap_filter_ne (fun d hd hne => ?_) fun _ => ?_
      · refine ih d hd (hf.not_within_child hn hd hne) fun x hx => ?_
        exact hchildren x (hx.tail ((hf.parent_iff d n).mpr hd))
      · rw [hf.substitute_eq, if_pos rfl, Option.getD_some]

end TakenOut

/-! ### Putting a node in the place of a child -/

theorem silent_exchange (f : Forest) (p old c : NodeId) : f.Silent (f.exchange p old c) :=
  (((silent_detach f c).trans (silent_modifyChildren _ p _)).trans (silent_setParent _ c _)).trans
    (silent_setParent _ old _)

/-- The children before and behind the one at an index, without `c`. -/
theorem filter_split_at (hat : (f.children p)[index]? = some old) (hne : old ≠ c) :
    (f.children p).filter (· != c) = ((f.children p).take index).filter (· != c) ++
      old :: ((f.children p).drop (index + 1)).filter (· != c) := by
  obtain ⟨hlt, hold⟩ := List.getElem?_eq_some_iff.mp hat
  have hsplit : f.children p =
      (f.children p).take index ++ old :: (f.children p).drop (index + 1) := by
    rw [← hold, ← List.drop_eq_getElem_cons hlt, List.take_append_drop]
  conv_lhs => rw [hsplit]
  rw [List.filter_append, List.filter_cons, if_pos (bne_iff_ne.mpr hne)]

theorem exchanged_exchange (hf : f.WellFormed) (hc : c < f.size)
    (hat : (f.children p)[index]? = some old) (hne : old ≠ c) (hout : ¬ f.Within p c) :
    f.Exchanged (f.exchange p old c) p index old c := by
  have hold : f.parent old = some p := (hf.parent_iff old p).mpr (List.mem_of_getElem? hat)
  have hparent := parent_exchange hc hold
  have hchildren := children_exchange hf hold (filter_split_at hat hne)
  have hrearranged : f.Rearranged (f.exchange p old c) :=
    { silent_exchange f p old c with
      wellFormed := hf.exchange hc hold hne hout
      size := by simp [exchange]
      value := by intro n; simp [exchange] }
  -- `p` stands above `old`, so the list of its children is none of those beneath `old`
  have hbeneath : ∀ x, f.Within x old →
      (f.exchange p old c).children x = (f.children x).filter (· != c) := by
    intro x hx
    rw [hchildren, if_neg]
    rintro rfl
    exact hf.acyclic old (Relation.TransGen.head' hold hx)
  have hapart : ¬ f.Within old c := by
    intro hin
    rcases within_cases hin with heq | ⟨q, hq, hqc⟩
    · exact hne heq
    · exact hout (Option.some.inj (hq.symm.trans hold) ▸ hqc)
  refine ⟨hrearranged.brought hf ?_ fun q hq => ?_, ?_, ?_, fun n hn hnold => ?_, ?_, ?_⟩
  · rw [hparent, if_neg (Ne.symm hne), if_pos rfl]
  · rw [hchildren, if_neg hq]
  · rw [hchildren, if_pos rfl]
  · rw [hparent, if_pos rfl]
  · rw [hparent, if_neg hnold, if_neg hn]
  · exact preorder_of_taken_out hf hrearranged.wellFormed hapart hbeneath
  · exact tree_of_taken_out hf hrearranged.wellFormed hapart hbeneath hrearranged.value

/-- **A child is replaced as a whole or not at all.**  There is no answer exactly if there is no
child at the index or the node encloses the one that it would come beneath, and then nothing has
changed.  A node that stands there already is the answer, and nothing has changed either.  Else the
answer is the child that stood there, and the node stands in its place. -/
theorem replaceChild_all_or_nothing (hf : f.WellFormed) (hc : c < f.size) (p : NodeId)
    (index : Nat) :
    ((f.replaceChild p index c).2 = none ↔ (f.children p).length ≤ index ∨ f.Within p c) ∧
      ((f.replaceChild p index c).2 = none → (f.replaceChild p index c).1 = f) ∧
      ((f.children p)[index]? = some c → f.replaceChild p index c = (f, some c)) ∧
      ∀ old, (f.children p)[index]? = some old → old ≠ c → ¬ f.Within p c →
        (f.replaceChild p index c).2 = some old ∧
          f.Exchanged (f.replaceChild p index c).1 p index old c := by
  refine ⟨?_, ?_, replaceChild_of_self, fun old hat hne hout => ?_⟩
  · rw [← List.getElem?_eq_none_iff]
    cases hat : (f.children p)[index]? with
    | none => simp [replaceChild_of_none hat]
    | some old =>
        have hold : f.parent old = some p := (hf.parent_iff old p).mpr (List.mem_of_getElem? hat)
        by_cases hne : old = c
        · -- a child does not enclose its parent
          have hout : ¬ f.Within p c := fun hin =>
            hf.acyclic c (Relation.TransGen.head' (hne ▸ hold) hin)
          simp [replaceChild_of_self (hne ▸ hat), hout]
        · by_cases hin : f.Within p c
          · simp [replaceChild_of_within hf hat hne hin, hin]
          · simp [replaceChild_of_not_within hf hat hne hin, hin]
  · intro hnone
    cases hat : (f.children p)[index]? with
    | none => rw [replaceChild_of_none hat]
    | some old =>
        by_cases hne : old = c
        · rw [replaceChild_of_self (hne ▸ hat)]
        · by_cases hin : f.Within p c
          · rw [replaceChild_of_within hf hat hne hin]
          · rw [replaceChild_of_not_within hf hat hne hin] at hnone
            cases hnone
  · rw [replaceChild_of_not_within hf hat hne hout]
    exact ⟨rfl, exchanged_exchange hf hc hat hne hout⟩

/-- A sibling from in front, a node from beneath the one that is replaced, no child there, and a node
from above. -/
theorem replaceChild_all_or_nothing_firstHasChild :
    (firstHasChild.replaceChild 0 2 3).2 = some 4 ∧
      (firstHasChild.replaceChild 0 2 3).1.children 0 = [1, 3] ∧
      (firstHasChild.replaceChild 0 0 2).1.children 0 = [2, 3, 4] ∧
      (firstHasChild.replaceChild 0 0 2).1.preorder 1 = [1] ∧
      (firstHasChild.replaceChild 0 3 2).2 = none ∧
      (firstHasChild.replaceChild 1 0 0).1 = firstHasChild := by
  have hf := wellFormed_firstHasChild
  have hsibling := replaceChild_all_or_nothing hf (c := 3) (by decide +kernel) 0 2
  have hbeneath := replaceChild_all_or_nothing hf (c := 2) (by decide +kernel) 0 0
  have hnone := replaceChild_all_or_nothing hf (c := 2) (by decide +kernel) 0 3
  have habove := replaceChild_all_or_nothing hf (c := 0) (by decide +kernel) 1 0
  have hout : ¬ firstHasChild.Within 0 3 ∧ ¬ firstHasChild.Within 0 2 := by
    rw [← hf.encloses_iff, ← hf.encloses_iff]
    decide +kernel
  have hin : firstHasChild.Within 1 0 := by
    rw [← hf.encloses_iff]
    decide +kernel
  obtain ⟨hanswer, hexchanged⟩ := hsibling.2.2.2 4 (by decide +kernel) (by decide) hout.1
  obtain ⟨-, hexchanged'⟩ := hbeneath.2.2.2 1 (by decide +kernel) (by decide) hout.2
  refine ⟨hanswer, ?_, ?_, ?_, hnone.1.mpr (Or.inl (by decide +kernel)),
    habove.2.1 (habove.1.mpr (Or.inr hin))⟩
  · rw [hexchanged.children_self]
    decide +kernel
  · rw [hexchanged'.children_self]
    decide +kernel
  · rw [hexchanged'.preorder_old]
    decide +kernel

end TreeRules.Forest
