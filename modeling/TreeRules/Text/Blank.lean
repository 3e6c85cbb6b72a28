/-
Blanks: the characters with the property White_Space, and texts trimmed of them.
-/
import TreeRules.Text.Range

namespace TreeRules.Text

/-- The code points with the property White_Space, as closed ranges in ascending order. -/
def blankRanges : List (Nat × Nat) := [
  (0x9, 0xD), (0x20, 0x20), (0x85, 0x85), (0xA0, 0xA0), (0x1680, 0x1680), (0x2000, 0x200A),
  (0x2028, 0x2029), (0x202F, 0x202F), (0x205F, 0x205F), (0x3000, 0x3000)]

/-- A character that separates words. -/
def isBlank (c : Char) : Bool := inRanges blankRanges c

/-- The text without the blanks it starts with. -/
def trimStart (cs : List Char) : List Char := cs.dropWhile isBlank

/-- The text without the blanks it ends with. -/
def trimEnd (cs : List Char) : List Char := (trimStart cs.reverse).reverse

/-- The text without the blanks around it. -/
def trim (cs : List Char) : List Char := trimEnd (trimStart cs)

end TreeRules.Text
