/-
Forests: nodes that have an identity, a text, a parent and an ordered list of children.

  * A node is named by a number.  Nodes are only ever added, so a name stays good, and a node that
    is cut off from its tree lives on as the root of a tree of its own.
  * A node's place is written down twice, in its own `parent` and in its parent's `children`.
    Every edit keeps the two in step and never lets a node lie beneath itself.
  * The walks up and down are bounded by the number of nodes, which no path without repetition
    exceeds.  Only the comparison of two subtrees goes on for as long as there are nodes to compare.
-/
import TreeRules.ValueTree.Basic

namespace TreeRules

/-- The name of a node. -/
abbrev NodeId := Nat

/-- The name of a record of changes. -/
abbrev LogId := Nat

/-- What may be reported of a node. -/
inductive ChangeKind where
  | removed
  | inserted
  | moved
  | childrenChanged
  deriving DecidableEq, Repr

/-- A report of one change to one record. -/
structure Delivery where
  log : LogId
  kind : ChangeKind
  node : NodeId
  deriving DecidableEq, Repr

/-- A node of a forest. -/
structure Node where
  value : String
  parent : Option NodeId := none
  children : List NodeId := []
  /-- The records that hear of changes to the node, once for each time they were added. -/
  observers : List LogId := []
  deriving Repr, Inhabited

/-- A forest: its nodes, and the changes reported so far. -/
structure Forest where
  nodes : Array Node := #[]
  deliveries : Array Delivery := #[]

namespace Forest

/-! ### Looking at a node -/

/-- The number of nodes. -/
def size (f : Forest) : Nat := f.nodes.size

/-- The node's text. -/
def value (f : Forest) (n : NodeId) : String :=
  match f.nodes[n]? with
  | some node => node.value
  | none => ""

/-- The node that this one lies directly beneath. -/
def parent (f : Forest) (n : NodeId) : Option NodeId :=
  f.nodes[n]?.bind Node.parent

/-- The nodes directly beneath this one, in order. -/
def children (f : Forest) (n : NodeId) : List NodeId :=
  match f.nodes[n]? with
  | some node => node.children
  | none => []

/-- The records that hear of changes to the node. -/
def observers (f : Forest) (n : NodeId) : List LogId :=
  match f.nodes[n]? with
  | some node => node.observers
  | none => []

/-- The node's position among its siblings. -/
def index (f : Forest) (n : NodeId) : Option Nat := do
  (f.children (← f.parent n)).idxOf? n

/-! ### Walking -/

/-- The node and up to `bound - 1` of the nodes above it, from the node upwards. -/
def ancestorsWithin (f : Forest) : Nat → NodeId → List NodeId
  | 0, _ => []
  | bound + 1, n =>
    n :: match f.parent n with
      | none => []
      | some p => f.ancestorsWithin bound p

/-- The node and the nodes above it, from the node upwards. -/
def ancestors (f : Forest) (n : NodeId) : List NodeId :=
  f.ancestorsWithin (f.size + 1) n

/-- `a` is `n` or lies above it. -/
def encloses (f : Forest) (a n : NodeId) : Bool :=
  (f.ancestors n).contains a

/-- The first `bound` levels of nodes at and beneath `n`, in document order. -/
def preorderWithin (f : Forest) : Nat → NodeId → List NodeId
  | 0, _ => []
  | bound + 1, n => n :: (f.children n).flatMap (f.preorderWithin bound)

/-- The node and all nodes beneath it, in document order. -/
def preorder (f : Forest) (n : NodeId) : List NodeId :=
  f.preorderWithin (f.size + 1) n

/-- The first levels of the node's subtree as a value tree. -/
def treeWithin (f : Forest) : Nat → NodeId → ValueTree
  | 0, n => .node (f.value n) []
  | bound + 1, n => .node (f.value n) ((f.children n).map (f.treeWithin bound))

/-- What the subtree at a node looks like. -/
def tree (f : Forest) (n : NodeId) : ValueTree :=
  f.treeWithin f.size n

/-- Compares the two nodes of each pair and all that lies beneath them, the first pair first.  Their
children are paired in turn, and these pairs are taken up, from the last one to the first, before
those that are left.  In a forest where nodes lay beneath themselves there might be no answer. -/
def comparePairs (f : Forest) : List (NodeId × NodeId) → Option Bool
  | [] => some true
  | (a, b) :: pairs =>
    if f.value a != f.value b then some false
    else if (f.children a).length != (f.children b).length then some false
    else f |>.comparePairs (((f.children a).zip (f.children b)).reverse ++ pairs)
partial_fixpoint

/-- The subtrees at two nodes look alike. -/
def sameStructure (f : Forest) (a b : NodeId) : Bool :=
  f.comparePairs [(a, b)] == some true

end Forest

end TreeRules
