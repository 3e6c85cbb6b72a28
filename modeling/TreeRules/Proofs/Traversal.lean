/-
Lists that are gone through member by member.

A reader that goes through a list and stops at the first failure gives a result for every member or
the error of the first one that fails.
-/
import Mathlib.Data.List.Forall2

namespace TreeRules

variable {α β ε : Type} {r : α → β → Prop} {f : α → Except ε β} {xs : List α} {ys : List β} {e : ε}

/-- If every member is related to something, the list is related to a list. -/
theorem exists_forall₂_iff : (∃ ys, List.Forall₂ r xs ys) ↔ ∀ x ∈ xs, ∃ y, r x y := by
  induction xs with
  | nil => simp
  | cons x xs ih =>
      rw [List.forall_mem_cons, ← ih]
      constructor
      · rintro ⟨ys, h⟩
        cases h with
        | cons hy hys => exact ⟨⟨_, hy⟩, _, hys⟩
      · rintro ⟨⟨y, hy⟩, ys, hys⟩
        exact ⟨y :: ys, .cons hy hys⟩

/-- Going through a list gives the results of its members in order. -/
theorem mapM_eq_ok_iff : xs.mapM f = .ok ys ↔ List.Forall₂ (fun x y => f x = .ok y) xs ys := by
  induction xs generalizing ys with
  | nil =>
      rw [List.mapM_nil, List.forall₂_nil_left_iff]
      exact ⟨fun h => (Except.ok.inj h).symm, fun h => by rw [h]; rfl⟩
  | cons x xs ih =>
      rw [List.mapM_cons, List.forall₂_cons_left_iff]
      cases hx : f x with
      | error e => simp [bind, Except.bind]
      | ok y =>
          cases hxs : xs.mapM f with
          | error e =>
              have hnone : ∀ ys, ¬ List.Forall₂ (fun x y => f x = .ok y) xs ys := by
                intro ys hys
                rw [ih.mpr hys] at hxs
                cases hxs
              simp [bind, Except.bind, hnone]
          | ok ys' =>
              have hys' : ∀ ys, List.Forall₂ (fun x y => f x = .ok y) xs ys ↔ ys' = ys := by
                intro ys
                rw [← ih, hxs, Except.ok.injEq]
              simp [bind, Except.bind, pure, Except.pure, hys', eq_comm]

/-- Going through a list fails as the first member does that fails. -/
theorem mapM_eq_error_iff :
    xs.mapM f = .error e ↔
      ∃ before x after, xs = before ++ x :: after ∧ (∀ x ∈ before, ∃ y, f x = .ok y) ∧
        f x = .error e := by
  induction xs with
  | nil => simp [pure, Except.pure]
  | cons x xs ih =>
      rw [List.mapM_cons]
      constructor
      · intro h
        cases hx : f x with
        | error e' =>
            simp only [hx, bind, Except.bind] at h
            obtain rfl := Except.error.inj h
            exact ⟨[], x, xs, rfl, by simp, hx⟩
        | ok y =>
            cases hxs : xs.mapM f with
            | ok ys => simp [hx, hxs, bind, Except.bind, pure, Except.pure] at h
            | error e' =>
                simp only [hx, hxs, bind, Except.bind] at h
                obtain rfl := Except.error.inj h
                obtain ⟨before, x', after, rfl, hbefore, hx'⟩ := ih.mp hxs
                refine ⟨x :: before, x', after, rfl, ?_, hx'⟩
                rw [List.forall_mem_cons]
                exact ⟨⟨y, hx⟩, hbefore⟩
      · rintro ⟨before, x', after, hsplit, hbefore, hx'⟩
        cases before with
        | nil =>
            obtain ⟨rfl, rfl⟩ := List.cons.inj hsplit
            simp [hx', bind, Except.bind]
        | cons b before =>
            obtain ⟨rfl, hxs⟩ := List.cons.inj hsplit
            rw [List.forall_mem_cons] at hbefore
            obtain ⟨⟨y, hy⟩, hbefore⟩ := hbefore
            have hrest := ih.mpr ⟨before, x', after, hxs, hbefore, hx'⟩
            simp only [hy, hrest, bind, Except.bind]

end TreeRules
