/-
Names that are looked up in a fixed list.
-/

namespace TreeRules

/-- A name that stands for nothing. -/
inductive NameError where
  | unknown
  deriving DecidableEq, Repr

/-- The error in words. -/
def NameError.message : NameError → String
  | unknown => "Matching variant not found"

end TreeRules
