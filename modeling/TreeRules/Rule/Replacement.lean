/-
Replacing a match's target.

A replacement is a template or a callback, which may edit the forest as it likes and answers with
the nodes that come into the target's place.  If a template is refused, nothing has changed; if a
callback's answer is refused, nothing has changed but what the callback itself did.
-/
import TreeRules.Document
import TreeRules.Template.Instance

namespace TreeRules

/-- What a match's target is replaced by. -/
inductive Replacement where
  | template (template : Template)
  | callback (build : Forest → Match → Forest × List NodeId)

/-- What is wrong with a node that is to be put in place or replaced. -/
inductive ReplacementFault where
  | targetGone
  | hasParent
  | isRoot
  | repeated
  | enclosesParent
  deriving DecidableEq, Repr

/-- The fault in words. -/
def ReplacementFault.description : ReplacementFault → String
  | targetGone => "the match target is no longer part of the tree"
  | hasParent => "it already has a parent"
  | isRoot => "it is the tree root"
  | repeated => "it was returned more than once"
  | enclosesParent => "it encloses the target's parent"

/-- The reasons for refusing to replace a target. -/
inductive ApplyError where
  /-- A node cannot be put in place, or has no place. -/
  | detachedReplacement (node : NodeId) (fault : ReplacementFault)
  /-- The root of the document must be replaced by one node. -/
  | invalidRootReplacement (node : NodeId) (count : Nat)
  deriving DecidableEq, Repr

namespace ApplyError

/-- The node at fault. -/
def node : ApplyError → NodeId
  | detachedReplacement node _ | invalidRootReplacement node _ => node

/-- The error in words, with nodes shown as the caller likes. -/
def message (shown : NodeId → String) : ApplyError → String
  | detachedReplacement node fault =>
    s!"replacement node {shown node} is attached to the tree: {fault.description}"
  | invalidRootReplacement node count =>
    s!"root {shown node} must be replaced by exactly one node, got {count}"

end ApplyError

/-- What a replacement did. -/
structure Applied where
  /-- Whether the document was changed. -/
  changed : Bool
  /-- The nodes put into the target's place. -/
  inserted : List NodeId
  deriving DecidableEq, Repr

/-- A place among the children of a node, or the place of the root. -/
structure Place where
  parent : Option NodeId
  index : Nat

namespace Replacement

/-- The place of a node. -/
def placeOf (f : Forest) (n : NodeId) : Place :=
  { parent := f.parent n, index := (f.index n).getD 0 }

/-- Moves nodes to places that follow one another among the children of `parent`. -/
def insertAll (f : Forest) (parent : NodeId) (index : Nat) : List NodeId → Forest
  | [] => f
  | root :: roots => insertAll (f.insertChild parent index root) parent (index + 1) roots

/-- Puts nodes into a place; the root's place takes only one. -/
def putInto (d : Document) (place : Place) (roots : List NodeId) : Document :=
  match place.parent, roots with
  | some parent, _ => { d with forest := insertAll d.forest parent place.index roots }
  | none, root :: _ => d.setRoot root
  | none, [] => d

/-- Reports a replacement: the target was removed, some nodes moved, the roots were put in, and
the children of the target's former parent changed. -/
def report (f : Forest) (target : NodeId) (moved roots : List NodeId) (parent : Option NodeId) :
    Forest :=
  let f := f.notify target .removed
  let f := moved.foldl (·.notify · .moved) f
  let f := roots.foldl (·.notify · .inserted) f
  match parent with
  | some p => f.notify p .childrenChanged
  | none => f

/-- What is wrong with a node that a callback answered with; `earlier` holds those before it. -/
def fault? (d : Document) (place : Place) (earlier : List NodeId) (root : NodeId) :
    Option ReplacementFault :=
  if (d.forest.parent root).isSome then some .hasParent
  else if root = d.root then some .isRoot
  else if earlier.contains root then some .repeated
  else if place.parent.any (d.forest.encloses root) then some .enclosesParent
  else none

/-- The first node of a callback's answer that is at fault. -/
def firstFault? (d : Document) (place : Place) (earlier : List NodeId) :
    List NodeId → Option ApplyError
  | [] => none
  | root :: roots =>
    match fault? d place earlier root with
    | some fault => some (.detachedReplacement root fault)
    | none => firstFault? d place (earlier ++ [root]) roots

/-- Replaces the target by a template. -/
def applyTemplate (d : Document) (m : Match) (t : Template) :
    Document × Except ApplyError Applied :=
  let place := placeOf d.forest m.target
  if place.parent.isNone && t.rootCount m != 1 then
    (d, .error (.invalidRootReplacement m.target (t.rootCount m)))
  else
    let (b, roots) := t.instantiate (d.forest.detach m.target) m
    let d := putInto { d with forest := b.forest } place roots
    ({ d with forest := report d.forest m.target b.moved roots place.parent },
      .ok { changed := true, inserted := roots })

/-- Replaces the target by what a callback answers with.  The target alone means no change; a node
that encloses the target takes it along. -/
def applyCallback (d : Document) (m : Match) (build : Forest → Match → Forest × List NodeId) :
    Document × Except ApplyError Applied :=
  let place := placeOf d.forest m.target
  let (forest, roots) := build d.forest m
  let d := { d with forest }
  if roots = [m.target] then (d, .ok { changed := false, inserted := [] })
  else match firstFault? d place [] roots with
    | some e => (d, .error e)
    | none =>
      if place.parent.isNone && roots.length != 1 then
        (d, .error (.invalidRootReplacement m.target roots.length))
      else
        let adopted := roots.any (d.forest.encloses · m.target)
        let d := if adopted then d else { d with forest := d.forest.detach m.target }
        let d := putInto d place roots
        let moved := if adopted then [m.target] else []
        ({ d with forest := report d.forest m.target moved roots place.parent },
          .ok { changed := true, inserted := roots })

/-- Replaces the target of a match.  A target without a parent that is not the document's root has
no place. -/
def apply (r : Replacement) (d : Document) (m : Match) : Document × Except ApplyError Applied :=
  if (d.forest.parent m.target).isNone && d.root != m.target then
    (d, .error (.detachedReplacement m.target .targetGone))
  else match r with
    | template t => applyTemplate d m t
    | callback build => applyCallback d m build

end Replacement

end TreeRules
