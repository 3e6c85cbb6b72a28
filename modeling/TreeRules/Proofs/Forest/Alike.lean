/-
Subtrees that look alike.

Two subtrees are compared pair by pair.  The children of a pair are paired in turn and wait on a
stack, and the comparison ends at the first pair that differs.  In a well-formed forest it always
ends: a pair is followed down to its leaves before the pairs beneath it are taken up, so what is
found of a pair does not depend on them.  That is an induction down the forest, for any stack, and
it says at the same time what is found.  Children are only paired when there are equally many of
them, so pairing loses none, and the answer is that the trees at the two nodes are equal.

`sameTree` decides the same by levels, as many as there are nodes.  It needs no forest to be well
formed to come to an end, and stands for the comparison where a tree is read off by levels as well.
-/
import Mathlib.Data.List.Forall2
import TreeRules.Proofs.Forest.Keeps
import TreeRules.Proofs.Forest.Tree

namespace TreeRules.Forest

variable {f : Forest} {a b : NodeId} {pairs : List (NodeId × NodeId)}

/-! ### Level by level -/

/-- The first levels beneath two nodes are equal: equal texts, equally many children, and the first
levels beneath these are equal one by one. -/
def sameWithin (f : Forest) : Nat → NodeId → NodeId → Bool
  | 0, a, b => f.value a == f.value b
  | bound + 1, a, b =>
    f.value a == f.value b && (f.children a).length == (f.children b).length &&
      ((f.children a).zip (f.children b)).all fun (c, d) => f.sameWithin bound c d

/-- The trees at two nodes are equal. -/
def sameTree (f : Forest) (a b : NodeId) : Bool :=
  f.sameWithin f.size a b

theorem sameWithin_iff (f : Forest) (bound : Nat) :
    ∀ a b, f.sameWithin bound a b = true ↔ f.treeWithin bound a = f.treeWithin bound b := by
  induction bound with
  | zero =>
      intro a b
      simp [sameWithin, treeWithin]
  | succ bound ih =>
      intro a b
      have hchildren : ∀ cs ds : List NodeId,
          (cs.length = ds.length ∧ ∀ c d, (c, d) ∈ cs.zip ds → f.sameWithin bound c d = true) ↔
            cs.map (f.treeWithin bound) = ds.map (f.treeWithin bound) := by
        intro cs ds
        simp only [ih]
        rw [← List.forall₂_eq_eq_eq, List.forall₂_map_left_iff, List.forall₂_map_right_iff,
          List.forall₂_iff_zip]
      rw [treeWithin, treeWithin, ValueTree.node.injEq, ← hchildren]
      simp [sameWithin, and_assoc]

theorem sameTree_iff (f : Forest) (a b : NodeId) :
    f.sameTree a b = true ↔ f.tree a = f.tree b :=
  sameWithin_iff f f.size a b

/-! ### Pair by pair -/

namespace WellFormed

/-- The trees at two nodes are equal exactly if their texts are, and the trees at their children one
by one. -/
theorem sameTree_iff_children (hf : f.WellFormed) (a b : NodeId) :
    f.sameTree a b = true ↔ f.value a = f.value b ∧
      (f.children a).length = (f.children b).length ∧
      ∀ pair ∈ (f.children a).zip (f.children b), f.sameTree pair.1 pair.2 = true := by
  have hchildren : (f.children a).map f.tree = (f.children b).map f.tree ↔
      (f.children a).length = (f.children b).length ∧
        ∀ pair ∈ (f.children a).zip (f.children b), f.sameTree pair.1 pair.2 = true := by
    simp only [sameTree_iff]
    rw [← List.forall₂_eq_eq_eq, List.forall₂_map_left_iff, List.forall₂_map_right_iff,
      List.forall₂_iff_zip, Prod.forall]
  rw [sameTree_iff, hf.tree_eq, hf.tree_eq, ValueTree.node.injEq, hchildren]

/-- **A pair is compared to its end, whatever waits beneath it:** where the trees are equal the
comparison goes on with the rest, and else it ends there. -/
theorem comparePairs_cons (hf : f.WellFormed) (a b : NodeId) (pairs : List (NodeId × NodeId)) :
    f.comparePairs ((a, b) :: pairs) =
      if f.sameTree a b then f.comparePairs pairs else some false := by
  induction a using hf.down_induction generalizing b pairs with
  | step a ih =>
      -- the children's pairs are compared one after another, each with the others beneath it
      have hwaiting : ∀ waiting : List (NodeId × NodeId),
          (∀ pair ∈ waiting, pair.1 ∈ f.children a) →
          f.comparePairs (waiting ++ pairs) =
            if ∀ pair ∈ waiting, f.sameTree pair.1 pair.2 = true then f.comparePairs pairs
            else some false := by
        intro waiting hmem
        induction waiting with
        | nil => simp
        | cons pair waiting ihw =>
            obtain ⟨c, d⟩ := pair
            rw [List.forall_mem_cons] at hmem
            rw [List.cons_append, ih c hmem.1, ihw hmem.2]
            by_cases hsame : f.sameTree c d = true
            · rw [if_pos hsame]
              refine if_congr ?_ rfl rfl
              rw [List.forall_mem_cons, and_iff_right hsame]
            · rw [if_neg hsame, if_neg fun hall => hsame (hall (c, d) List.mem_cons_self)]
      have hends := hf.sameTree_iff_children a b
      rw [comparePairs]
      by_cases hvalue : f.value a = f.value b
      · by_cases hlength : (f.children a).length = (f.children b).length
        · have hzip := hwaiting ((f.children a).zip (f.children b)).reverse fun pair hpair =>
            (List.of_mem_zip (List.mem_reverse.mp hpair)).1
          have hall : (∀ pair ∈ ((f.children a).zip (f.children b)).reverse,
              f.sameTree pair.1 pair.2 = true) ↔ f.sameTree a b = true := by
            rw [hends]
            simp [hvalue, hlength]
          rw [if_neg (by simpa using hvalue), if_neg (by simpa using hlength), hzip]
          exact if_congr hall rfl rfl
        · rw [if_neg (by simpa using hvalue), if_pos (by simpa using hlength),
            if_neg fun hsame => hlength (hends.mp hsame).2.1]
      · rw [if_pos (by simpa using hvalue), if_neg fun hsame => hvalue (hends.mp hsame).1]

/-- **The comparison ends**, with any pairs on the stack, and finds whether the trees of all of them
are equal. -/
theorem comparePairs_eq (hf : f.WellFormed) (pairs : List (NodeId × NodeId)) :
    f.comparePairs pairs = some (pairs.all fun pair => f.sameTree pair.1 pair.2) := by
  induction pairs with
  | nil => rw [comparePairs, List.all_nil]
  | cons pair pairs ih =>
      obtain ⟨a, b⟩ := pair
      rw [hf.comparePairs_cons, ih, List.all_cons]
      cases f.sameTree a b <;> rfl

theorem sameStructure_eq (hf : f.WellFormed) (a b : NodeId) :
    f.sameStructure a b = f.sameTree a b := by
  rw [sameStructure, hf.comparePairs_eq]
  cases h : f.sameTree a b <;> simp [h]

/-- **Two subtrees look alike exactly if they are equal as trees:** the comparison of any two nodes,
be they apart, one beneath the other or the same, comes to an answer, and the answer is yes exactly
if their texts and their children in order make up the same tree. -/
theorem comparison_exact (hf : f.WellFormed) (a b : NodeId) :
    f.comparePairs [(a, b)] = some (f.sameStructure a b) ∧
      (f.sameStructure a b = true ↔ f.tree a = f.tree b) := by
  have hall : ([(a, b)].all fun pair => f.sameTree pair.1 pair.2) = f.sameTree a b := by
    rw [List.all_cons, List.all_nil, Bool.and_true]
  rw [hf.comparePairs_eq, hall, hf.sameStructure_eq]
  exact ⟨rfl, sameTree_iff f a b⟩

end WellFormed

/-- A node with three beneath it that have one text.  Only the first two of them look alike, and the
third one has a node beneath it too many. -/
def twoOfThree : Forest :=
  (Document.ofTree (.node "r" [.node "a" [.node "b" []], .node "a" [.node "b" []],
    .node "a" [.node "b" [], .node "b" []]])).forest

theorem comparison_exact_twoOfThree :
    twoOfThree.comparePairs [(1, 3)] = some true ∧ twoOfThree.comparePairs [(1, 5)] = some false := by
  have hf : twoOfThree.WellFormed := wellFormed_ofTree _
  obtain ⟨halike, htrees⟩ := hf.comparison_exact 1 3
  obtain ⟨hunlike, htrees'⟩ := hf.comparison_exact 1 5
  rw [halike, hunlike, Option.some.injEq, Option.some.injEq, htrees, ← Bool.not_eq_true, htrees',
    ← sameTree_iff, ← sameTree_iff]
  decide +kernel

end TreeRules.Forest
