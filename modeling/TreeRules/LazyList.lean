/-
Lists whose tail is worked out only when it is looked at.

A search that is asked for one answer works no further than that answer.  What a lazy list holds
is the list `toList`, and every operation is told by what it does to that.
-/

namespace TreeRules

/-- A list with a tail that is worked out on demand. -/
inductive LazyList (α : Type) where
  | nil
  | cons (head : α) (tail : Unit → LazyList α)

namespace LazyList

variable {α : Type}

/-- All elements. -/
def toList : LazyList α → List α
  | nil => []
  | cons x xs => x :: (xs ()).toList

/-- The first element. -/
def head? : LazyList α → Option α
  | nil => none
  | cons x _ => some x

/-- The first `n` elements; nothing behind them is looked at. -/
def take (n : Nat) : LazyList α → LazyList α
  | nil => nil
  | cons x xs =>
    if n = 0 then nil else cons x fun _ => if n = 1 then nil else take (n - 1) (xs ())

/-! ### What the operations do to the list -/

@[simp] theorem toList_nil : (nil : LazyList α).toList = [] := rfl

@[simp] theorem toList_cons (x : α) (xs : Unit → LazyList α) :
    (cons x xs).toList = x :: (xs ()).toList := rfl

theorem head?_eq (xs : LazyList α) : xs.head? = xs.toList.head? := by
  cases xs <;> rfl

@[simp] theorem toList_take (n : Nat) (xs : LazyList α) :
    (xs.take n).toList = xs.toList.take n := by
  induction xs generalizing n with
  | nil => simp [take]
  | cons x xs ih =>
    rw [take]
    match n with
    | 0 => simp
    | 1 => simp
    | n + 2 => simp [ih]

end LazyList

end TreeRules
