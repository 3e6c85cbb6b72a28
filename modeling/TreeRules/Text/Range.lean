/-
Membership of a character in a table of code point ranges.
-/

namespace TreeRules.Text

/-- Some range of the table holds the character's code point. -/
def inRanges (ranges : List (Nat × Nat)) (c : Char) : Bool :=
  ranges.any fun r => r.1 ≤ c.toNat && c.toNat ≤ r.2

end TreeRules.Text
