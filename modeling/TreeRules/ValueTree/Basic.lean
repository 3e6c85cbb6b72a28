/-
Value trees: ordered trees that carry a text at every node.

A value tree says what a tree looks like and nothing about where its nodes live.  Tree texts are
read into value trees, and the nodes of a forest are viewed as one (`Forest.tree`).
-/

namespace TreeRules

/-- A text at the root and an ordered list of trees beneath it. -/
inductive ValueTree where
  | node (value : String) (children : List ValueTree)
  deriving Inhabited

namespace ValueTree

/-- The text at the root. -/
def value : ValueTree → String
  | node value _ => value

/-- The trees directly beneath the root. -/
def children : ValueTree → List ValueTree
  | node _ children => children

mutual

/-- Every node's depth and text in document order, when the root lies at `depth`. -/
def outlineFrom (depth : Nat) : ValueTree → List (Nat × String)
  | node value children => (depth, value) :: outlinesFrom (depth + 1) children

/-- The outlines of trees that stand side by side at `depth`. -/
def outlinesFrom (depth : Nat) : List ValueTree → List (Nat × String)
  | [] => []
  | tree :: trees => outlineFrom depth tree ++ outlinesFrom depth trees

end

/-- Every node's depth and text in document order; the root has depth 0. -/
def outline (tree : ValueTree) : List (Nat × String) := tree.outlineFrom 0

mutual

/-- The number of nodes. -/
def size : ValueTree → Nat
  | node _ children => sizes children + 1

/-- The number of nodes of some trees. -/
def sizes : List ValueTree → Nat
  | [] => 0
  | tree :: trees => size tree + sizes trees

end

end ValueTree

end TreeRules
