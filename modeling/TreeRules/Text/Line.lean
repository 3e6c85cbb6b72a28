/-
Lines of a text.

A line ends with its line feed, which belongs to it; the last line may end without one.  So the
lines of a text, one after another, are the text again.
-/
import TreeRules.Text.Width

namespace TreeRules.Text

/-- The lines of a text, each with its line feed. -/
def splitLines : List Char → List (List Char)
  | [] => []
  | c :: cs =>
    if c = '\n' then [c] :: splitLines cs
    else match splitLines cs with
      | [] => [[c]]
      | line :: lines => (c :: line) :: lines

/-- Each line with its position, when the first one starts at `start`. -/
def placeLines (start : Nat) : List (List Char) → List (Placed (List Char))
  | [] => []
  | line :: lines => ⟨line, start⟩ :: placeLines (start + byteWidth line) lines

/-- The lines of a text with their positions. -/
def placedLines (cs : List Char) : List (Placed (List Char)) :=
  placeLines 0 (splitLines cs)

theorem flatten_splitLines (cs : List Char) : (splitLines cs).flatten = cs := by
  induction cs with
  | nil => rfl
  | cons c cs ih =>
    rw [splitLines]
    split
    · simp [ih]
    · split
      · next h => simp [h] at ih; simp [ih]
      · next h => simp [h] at ih; simp [ih]

end TreeRules.Text
