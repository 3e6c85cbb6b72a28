/-
Reports of changes.

A record of changes is added to the nodes it is to hear of, any number of times.  A report about a
node is delivered to the node's records in the order in which they were added.
-/
import TreeRules.Forest.Edit
import TreeRules.NameError

namespace TreeRules

namespace ChangeKind

/-- The kind's name. -/
def name : ChangeKind → String
  | removed => "removed"
  | inserted => "inserted"
  | moved => "moved"
  | childrenChanged => "children_changed"

/-- The kind of that name. -/
def ofName (name : String) : Except NameError ChangeKind :=
  match name with
  | "removed" => .ok removed
  | "inserted" => .ok inserted
  | "moved" => .ok moved
  | "children_changed" => .ok childrenChanged
  | _ => .error .unknown

end ChangeKind

namespace Forest

/-- Adds a record to the node. -/
def observe (f : Forest) (log : LogId) (n : NodeId) : Forest :=
  f.modify n fun node => { node with observers := node.observers ++ [log] }

/-- Adds a record to the node and every node beneath it. -/
def observeSubtree (f : Forest) (log : LogId) (n : NodeId) : Forest :=
  (f.preorder n).foldl (·.observe log ·) f

/-- Reports a change of the node to each of its records. -/
def notify (f : Forest) (n : NodeId) (kind : ChangeKind) : Forest :=
  { f with deliveries := f.deliveries ++ ((f.observers n).map (⟨·, kind, n⟩)).toArray }

/-- What a record has heard, in order. -/
def changes (f : Forest) (log : LogId) : List (ChangeKind × NodeId) :=
  f.deliveries.toList.filterMap fun d => if d.log = log then some (d.kind, d.node) else none

/-- Empties a record. -/
def clearChanges (f : Forest) (log : LogId) : Forest :=
  { f with deliveries := f.deliveries.filter (·.log != log) }

end Forest

end TreeRules
