/-
Matches: what a search reports.
-/
import TreeRules.Matching.Machine

namespace TreeRules

/-- The nodes bound to a name. -/
inductive Captured where
  | single (node : NodeId)
  | multiple (nodes : List NodeId)
  deriving DecidableEq, Repr

namespace Captured

/-- The nodes, in the order in which they were consumed. -/
def nodes : Captured → List NodeId
  | single node => [node]
  | multiple nodes => nodes

/-- Which of the two it is. -/
def kind : Captured → CaptureKind
  | single _ => .single
  | multiple _ => .multiple

end Captured

/-- A match of a pattern. -/
structure Match where
  /-- The first node consumed. -/
  start : NodeId
  /-- The last node consumed; a replacement takes the place of its subtree. -/
  target : NodeId
  /-- The nodes consumed, in order. -/
  consumed : List NodeId
  /-- The captures that bind a node, by name. -/
  captures : List (String × Captured)
  deriving DecidableEq, Repr

namespace Match

/-- The nodes recorded in a slot, once for each time they are. -/
def recordedIn (slot : Nat) (visits : List Visit) : List NodeId :=
  visits.flatMap fun visit => (visit.slots.filter (· == slot)).map fun _ => visit.node

/-- What a slot binds, if it binds anything. -/
def captured? (kind : CaptureKind) (nodes : List NodeId) : Option Captured :=
  match kind, nodes with
  | _, [] => none
  | .single, [node] => some (.single node)
  | _, nodes => some (.multiple nodes)

/-- Adds a capture to others, which are in the order of their names. -/
def insertByName (capture : String × Captured) :
    List (String × Captured) → List (String × Captured)
  | [] => [capture]
  | other :: others =>
    if capture.1 < other.1 then capture :: other :: others
    else other :: insertByName capture others

/-- The captures of a program that bind a node, in the order of their names. -/
def captureNodes (slots : List CaptureSlot) (visits : List Visit) : List (String × Captured) :=
  let bound := slots.zipIdx.filterMap fun (slot, i) =>
    (captured? slot.kind (recordedIn i visits)).map (slot.name, ·)
  bound.foldr insertByName []

/-- The match that consumes these nodes; there is none that consumes no node. -/
def ofVisits? (program : Program) (visits : List Visit) : Option Match := do
  return {
    start := (← visits.head?).node
    target := (← visits.getLast?).node
    consumed := visits.map (·.node)
    captures := captureNodes program.captures visits }

/-- The nodes bound to a name. -/
def nodes (m : Match) (name : String) : List NodeId :=
  match m.captures.lookup name with
  | some captured => captured.nodes
  | none => []

end Match

end TreeRules
