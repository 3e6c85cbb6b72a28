/-
Edits of a forest.

  * `detach` takes a node, with what lies beneath it, out of its parent's children.
  * `insertChild` moves a node to a place among another node's children, `replaceChild` puts a node
    in the place of a child.  Neither does anything when the node would come to lie beneath itself.
  * `plant` gives a value tree new nodes, and `deepClone` plants a node's subtree again.
-/
import TreeRules.Forest.Basic

namespace TreeRules.Forest

/-- The forest with one node changed. -/
def modify (f : Forest) (n : NodeId) (change : Node → Node) : Forest :=
  { f with nodes := f.nodes.modify n change }

/-- The forest with the node's parent noted as `p`. -/
def setParent (f : Forest) (n : NodeId) (p : Option NodeId) : Forest :=
  f.modify n ({ · with parent := p })

/-- The forest with the node's list of children changed. -/
def modifyChildren (f : Forest) (n : NodeId) (change : List NodeId → List NodeId) : Forest :=
  f.modify n fun node => { node with children := change node.children }

/-- A new node without parent, children and observers. -/
def newNode (f : Forest) (value : String) : Forest × NodeId :=
  ({ f with nodes := f.nodes.push { value } }, f.size)

/-- Gives the node another text. -/
def setValue (f : Forest) (n : NodeId) (value : String) : Forest :=
  f.modify n ({ · with value })

/-- Takes the node out of its parent's children. -/
def detach (f : Forest) (n : NodeId) : Forest :=
  match f.parent n with
  | none => f
  | some p => (f.modifyChildren p (·.filter (· != n))).setParent n none

/-- Moves `child` to position `index` among the children of `parent`.  The position is counted
without the child itself, and one that is too large means the end. -/
def insertChild (f : Forest) (parent : NodeId) (index : Nat) (child : NodeId) : Forest :=
  if f.encloses child parent then f
  else
    let f := f.detach child
    (f.setParent child (some parent)).modifyChildren parent fun children =>
      children.insertIdx (min index children.length) child

/-- Moves `child` to the end of the children of `parent`. -/
def pushChild (f : Forest) (parent child : NodeId) : Forest :=
  f.insertChild parent (f.children parent).length child

/-- Moves several nodes, one after another, to the end of the children of `parent`. -/
def pushChildren (f : Forest) (parent : NodeId) (children : List NodeId) : Forest :=
  children.foldl (·.pushChild parent ·) f

/-- Puts `child` in the place of the child of `parent` at `index` and answers the one that stood
there, now without a parent.  There is no answer, and no change, if no child stands there or
`child` encloses `parent`. -/
def replaceChild (f : Forest) (parent : NodeId) (index : Nat) (child : NodeId) :
    Forest × Option NodeId :=
  match (f.children parent)[index]? with
  | none => (f, none)
  | some old =>
    if old = child then (f, some old)
    else if f.encloses child parent then (f, none)
    else
      let f := f.detach child
      if (f.children parent).contains old then
        (((f.modifyChildren parent (·.replace old child)).setParent child (some parent)).setParent
          old none, some old)
      else (f, none)

mutual

/-- New nodes for a value tree; the answer is the new root. -/
def plant (f : Forest) : ValueTree → Forest × NodeId
  | .node value trees =>
    let (f, n) := f.newNode value
    (f.plantBeneath n trees, n)

/-- New nodes for value trees, at the end of the children of `n`. -/
def plantBeneath (f : Forest) (n : NodeId) : List ValueTree → Forest
  | [] => f
  | tree :: trees =>
    let (f, child) := f.plant tree
    (f.pushChild n child).plantBeneath n trees

end

/-- New nodes that look like the subtree at a node and have no observers; the answer is the new
root, which has no parent. -/
def deepClone (f : Forest) (n : NodeId) : Forest × NodeId :=
  f.plant (f.tree n)

end TreeRules.Forest
