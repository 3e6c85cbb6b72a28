/-
Documents: a forest with one node singled out as the root.

The root need not be without a parent, and nodes of the forest may lie outside the document.
-/
import TreeRules.Forest.Change

namespace TreeRules

/-- A forest and the root of the tree that is being worked on. -/
structure Document where
  forest : Forest
  root : NodeId

namespace Document

/-- A document of new nodes that looks like the value tree. -/
def ofTree (tree : ValueTree) : Document :=
  let (forest, root) := Forest.plant {} tree
  { forest, root }

/-- What the document looks like. -/
def tree (d : Document) : ValueTree := d.forest.tree d.root

/-- The document's nodes in document order. -/
def preorder (d : Document) : List NodeId := d.forest.preorder d.root

/-- The topmost node above `n` is the root. -/
def contains (d : Document) (n : NodeId) : Bool :=
  (d.forest.ancestors n).getLast? == some d.root

/-- The first node with that text in document order. -/
def find? (d : Document) (value : String) : Option NodeId :=
  d.preorder.find? (d.forest.value · == value)

/-- Makes another node the root. -/
def setRoot (d : Document) (root : NodeId) : Document := { d with root }

end Document

end TreeRules
