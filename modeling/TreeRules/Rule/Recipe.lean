/-
Recipes: callbacks put together from a few steps.

A recipe yields nodes and may edit the forest on the way.  What it says of the target's
surroundings it reads off the forest when it gets there.
-/
import TreeRules.Rule.Replacement

namespace TreeRules

/-- A way of getting at nodes. -/
inductive Recipe where
  /-- The match's target. -/
  | target
  /-- The node that the match starts at. -/
  | start
  /-- The target's parent, if it has one. -/
  | parent
  /-- The target's children. -/
  | children
  /-- The node right after the target, if there is one. -/
  | next
  /-- A new node that holds the number of nodes consumed. -/
  | count
  /-- A new node with what the recipes beneath it yield as its children. -/
  | fresh (value : String) (beneath : List Recipe)
  /-- Clones of what a recipe yields. -/
  | clone (inner : Recipe)
  /-- What a recipe yields, detached. -/
  | detach (inner : Recipe)
  /-- Nothing; what the recipe yields is detached. -/
  | drop (inner : Recipe)
  /-- The nodes bound to a name. -/
  | capture (name : String)
  /-- These nodes. -/
  | nodes (ns : List NodeId)

namespace Recipe

/-- Clones nodes one after another. -/
def cloneAll (f : Forest) : List NodeId → Forest × List NodeId
  | [] => (f, [])
  | n :: ns =>
    let (f, c) := f.deepClone n
    let (f, cs) := cloneAll f ns
    (f, c :: cs)

/-- Detaches nodes one after another. -/
def detachAll (f : Forest) (ns : List NodeId) : Forest := ns.foldl Forest.detach f

mutual

/-- The nodes that a recipe yields for a match. -/
def build (m : Match) (f : Forest) : Recipe → Forest × List NodeId
  | target => (f, [m.target])
  | start => (f, [m.start])
  | parent => (f, (f.parent m.target).toList)
  | children => (f, f.children m.target)
  | next => (f, (f.nextSibling m.target).toList)
  | count =>
    let (f, n) := f.newNode (toString m.consumed.length)
    (f, [n])
  | fresh value beneath =>
    let (f, n) := f.newNode value
    let (f, ns) := buildAll m f beneath
    (f.pushChildren n ns, [n])
  | clone inner =>
    let (f, ns) := build m f inner
    cloneAll f ns
  | detach inner =>
    let (f, ns) := build m f inner
    (detachAll f ns, ns)
  | drop inner =>
    let (f, ns) := build m f inner
    (detachAll f ns, [])
  | capture name => (f, m.nodes name)
  | nodes ns => (f, ns)

/-- The nodes that recipes yield one after another. -/
def buildAll (m : Match) (f : Forest) : List Recipe → Forest × List NodeId
  | [] => (f, [])
  | recipe :: recipes =>
    let (f, ns) := build m f recipe
    let (f, more) := buildAll m f recipes
    (f, ns ++ more)

end

/-- The replacement that these recipes make. -/
def replacement (recipes : List Recipe) : Replacement :=
  .callback fun f m => buildAll m f recipes

end Recipe

end TreeRules
