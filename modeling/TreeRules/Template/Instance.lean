/-
Instances of templates.

The nodes that a template refers to are used again where they lie beneath the match's target: the
first use of such a node moves it, and every other use is a clone.  So no node is put in two places.
-/
import TreeRules.Forest.Edit
import TreeRules.Matching.Match

namespace TreeRules

/-- How far an instance has been built. -/
structure Instance where
  forest : Forest
  /-- The nodes that have been moved, in order. -/
  moved : List NodeId := []

namespace Instance

/-- Uses a node of the match: moves it if it lies beneath the target, which has been detached, and
has not been moved before; clones it otherwise. -/
def use (m : Match) (b : Instance) (n : NodeId) : Instance × NodeId :=
  if b.forest.encloses m.target n && !b.moved.contains n then
    ({ forest := b.forest.detach n, moved := b.moved ++ [n] }, n)
  else
    let (forest, clone) := b.forest.deepClone n
    ({ b with forest }, clone)

/-- Uses nodes of the match one after another. -/
def useAll (m : Match) (b : Instance) : List NodeId → Instance × List NodeId
  | [] => (b, [])
  | n :: ns =>
    let (b, root) := b.use m n
    let (b, roots) := b.useAll m ns
    (b, root :: roots)

mutual

/-- Builds what a node of a template stands for. -/
def node (m : Match) (b : Instance) : TemplateNode → Instance × List NodeId
  | .node (.literal text) beneath =>
    let (forest, root) := b.forest.newNode text
    let (b, children) := nodes m { b with forest } beneath
    ({ b with forest := b.forest.pushChildren root children }, [root])
  | .node .target _ =>
    let (b, root) := b.use m m.target
    (b, [root])
  | .node (.capture name _) _ => b.useAll m (m.nodes name)

/-- Builds what some nodes of a template stand for. -/
def nodes (m : Match) (b : Instance) : List TemplateNode → Instance × List NodeId
  | [] => (b, [])
  | first :: others =>
    let (b, roots) := node m b first
    let (b, more) := nodes m b others
    (b, roots ++ more)

end

end Instance

namespace Template

/-- How many nodes the template stands for. -/
def rootCount (t : Template) (m : Match) : Nat :=
  let count : TemplateNode → Nat := fun root =>
    match root.head with
    | .literal _ | .target => 1
    | .capture name _ => (m.nodes name).length
  t.roots.foldr (count · + ·) 0

/-- Builds the template for a match whose target has been detached; the answer is the list of
nodes that come into the target's place. -/
def instantiate (t : Template) (f : Forest) (m : Match) : Instance × List NodeId :=
  Instance.nodes m { forest := f } t.roots

end Template

end TreeRules
