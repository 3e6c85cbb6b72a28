/-
Matches that keep clear of one another.

Of a list of matches, `keepClear` keeps those that do not run into one kept before.  Whether they do
is asked from above, by looking at what lies in the targets' subtrees; a search asks from below, by
following parents.  In a well-formed forest that comes to the same.
-/
import TreeRules.Matching.Find
import TreeRules.Proofs.Forest.WellFormed

namespace TreeRules.Match

variable {f : Forest} {k m : Match} {kept matched : List Match}

/-- The match keeps clear of what is replaced by `k`: its target is not the target of `k` and does
not lie above it, and it consumes no node of that target's subtree. -/
def Clear (f : Forest) (m k : Match) : Prop :=
  k.target ∉ f.preorder m.target ∧ ∀ n ∈ m.consumed, n ∉ f.preorder k.target

instance (f : Forest) (m k : Match) : Decidable (m.Clear f k) :=
  inferInstanceAs (Decidable (_ ∧ _))

/-- The matches that keep clear of those in `kept` and of all kept before them. -/
def keepClear (f : Forest) (kept : List Match) : List Match → List Match
  | [] => []
  | m :: rest =>
    if ∀ k ∈ kept, m.Clear f k then m :: keepClear f (m :: kept) rest else keepClear f kept rest

theorem clear_iff_within (hf : f.WellFormed) :
    m.Clear f k ↔ ¬ f.Within k.target m.target ∧ ∀ n ∈ m.consumed, ¬ f.Within n k.target := by
  unfold Clear
  simp only [hf.mem_preorder_iff]

/-- Looking down and looking up come to the same. -/
theorem overlaps_eq_false_iff (hf : f.WellFormed) :
    m.overlaps f k.target = false ↔ m.Clear f k := by
  rw [clear_iff_within hf, overlaps, Bool.or_eq_false_iff, ← Bool.not_eq_true, hf.encloses_iff,
    List.any_eq_false]
  refine and_congr_right fun _ => forall₂_congr fun n _ => ?_
  rw [hf.encloses_iff]

/-- **Where a match keeps clear of another, their targets have no node in common.** -/
theorem Clear.disjoint (h : m.Clear f k) (hf : f.WellFormed) (hm : m.target ∈ m.consumed) :
    (f.preorder k.target).Disjoint (f.preorder m.target) := by
  rw [clear_iff_within hf] at h
  intro n hk hmn
  rw [hf.mem_preorder_iff] at hk hmn
  rcases Forest.within_total hk hmn with hwithin | hwithin
  · exact h.1 hwithin
  · exact h.2 m.target hm hwithin

theorem keepClear_sublist (f : Forest) (kept matched : List Match) :
    (keepClear f kept matched).Sublist matched := by
  induction matched generalizing kept with
  | nil => exact List.Sublist.refl _
  | cons m rest ih =>
      rw [keepClear]
      split
      · exact (ih (m :: kept)).cons_cons m
      · exact (ih kept).cons m

theorem clear_of_mem_keepClear (h : m ∈ keepClear f kept matched) :
    ∀ k ∈ kept, m.Clear f k := by
  induction matched generalizing kept with
  | nil => simp [keepClear] at h
  | cons first rest ih =>
      rw [keepClear] at h
      split at h
      · rename_i hfirst
        rcases List.mem_cons.mp h with rfl | h
        · exact hfirst
        · exact fun k hk => ih h k (List.mem_cons_of_mem _ hk)
      · exact ih h

/-- **Each match kept keeps clear of all those before it.** -/
theorem pairwise_keepClear (f : Forest) (kept matched : List Match) :
    (keepClear f kept matched).Pairwise fun k m => m.Clear f k := by
  induction matched generalizing kept with
  | nil => exact List.Pairwise.nil
  | cons m rest ih =>
      rw [keepClear]
      split
      · refine List.Pairwise.cons (fun later hlater => ?_) (ih (m :: kept))
        exact clear_of_mem_keepClear hlater m List.mem_cons_self
      · exact ih kept

end TreeRules.Match
