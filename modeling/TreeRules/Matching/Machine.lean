/-
Running a program on a forest.

  * A machine follows one thread at a time.  Where the program leaves a choice, the machine goes one
    way and keeps the others as a choice point on a stack; when the thread ends, it takes up the
    latest choice point.
  * The nodes along an axis are looked up as they are needed: a choice point holds those still to
    come.
  * A machine that has found a solution can be asked for the next one.  What is left of the search
    is the stack.
-/
import TreeRules.Forest.Basic
import TreeRules.Predicates

namespace TreeRules

/-- A consumed node and the capture slots that it is recorded in. -/
structure Visit where
  node : NodeId
  slots : List Nat
  deriving DecidableEq, Repr

/-- What a pattern is matched against. -/
structure Scene where
  forest : Forest
  predicates : Predicates
  /-- Where the search started. -/
  scanRoot : NodeId
  /-- Where the match starts. -/
  start : NodeId

/-- A program at work. -/
structure Search extends Scene where
  program : Program

namespace Forest

/-- The node right after `n` among its siblings. -/
def nextSibling (f : Forest) (n : NodeId) : Option NodeId := do
  (f.children (← f.parent n))[(← f.index n) + 1]?

/-- The siblings of `n`, without `n` itself. -/
def siblings (f : Forest) (n : NodeId) : List NodeId :=
  match f.parent n with
  | some p => (f.children p).filter (· != n)
  | none => []

end Forest

/-- Nodes that are handed out one by one. -/
structure Candidates where
  /-- The nodes to come, the next one first. -/
  pending : List NodeId
  /-- Each node handed out is followed by the nodes beneath it. -/
  descend : Bool
  deriving DecidableEq, Repr

namespace Candidates

/-- One node. -/
def only (n : NodeId) : Candidates := ⟨[n], false⟩

/-- The nodes that lie along an axis from `n`, in document order. -/
def along (f : Forest) (axis : Axis) (n : NodeId) : Candidates :=
  match axis with
  | .child => ⟨f.children n, false⟩
  | .descendant => ⟨f.children n, true⟩
  | .nextSibling => ⟨(f.nextSibling n).toList, false⟩
  | .anySibling => ⟨f.siblings n, false⟩

/-- The next node and the ones after it. -/
def next? (f : Forest) (c : Candidates) : Option (NodeId × Candidates) :=
  match c.pending with
  | [] => none
  | n :: rest => some (n, { c with pending := if c.descend then f.children n ++ rest else rest })

end Candidates

/-- A way through a program, as far as it has come. -/
structure Thread where
  /-- The place of the next instruction. -/
  place : Nat
  /-- The current node, once a node has been consumed. -/
  here : Option NodeId
  /-- The nodes consumed, the latest first. -/
  trail : List Visit
  deriving DecidableEq, Repr

/-- Ways that have not been taken yet. -/
inductive Choice where
  /-- A thread to be followed. -/
  | branch (thread : Thread)
  /-- Nodes that the instruction at `place` may consume after those in `trail`. -/
  | among (place : Nat) (trail : List Visit) (candidates : Candidates)
  deriving DecidableEq, Repr

/-- A machine, with the choice points that are left, the latest first. -/
inductive Machine where
  /-- A thread is being followed. -/
  | following (thread : Thread) (choices : List Choice)
  /-- The latest choice point is to be taken up. -/
  | resuming (choices : List Choice)
  deriving DecidableEq, Repr

/-- What a machine has come to after one step. -/
inductive Progress where
  | running (machine : Machine)
  /-- The nodes consumed, in order, and the choice points left. -/
  | found (solution : List Visit) (choices : List Choice)
  | exhausted
  deriving DecidableEq, Repr

namespace Search

/-- The node most recently captured under a name; the latest visit comes first. -/
def bound (s : Search) (name : String) (trail : List Visit) : Option NodeId := do
  let slot ← s.program.slot? name
  return (← trail.find? (·.slots.contains slot)).node

/-- The node passes the test, given what has been consumed before it. -/
def passes (s : Search) (test : NodeTest) (trail : List Visit) (n : NodeId) : Bool :=
  match test with
  | .any => true
  | .literal text => s.forest.value n == text
  | .predicate name => s.predicates.holds name (s.forest.value n)
  | .reference name => (s.bound name trail).any (s.forest.sameStructure · n)

/-- The node may be consumed: it passes the test, and has not been consumed before. -/
def accepts (s : Search) (test : NodeTest) (trail : List Visit) (n : NodeId) : Bool :=
  s.passes test trail n && !trail.any (·.node == n)

/-- The condition holds of a match that has come to `here`, if it has consumed a node at all. -/
def holds (s : Search) (anchor : Anchor) (here : Option NodeId) : Bool :=
  match anchor with
  | .root => s.start == s.scanRoot
  | .leaf => here.any fun n => (s.forest.children n).isEmpty

/-- The nodes that may come next: the start, as long as none has been consumed, and then those
along the axis. -/
def candidates (s : Search) (axis : Axis) (here : Option NodeId) : Candidates :=
  match here with
  | none => .only s.start
  | some n => .along s.forest axis n

/-- Carries out the instruction that a thread has come to. -/
def follow (s : Search) (t : Thread) (choices : List Choice) : Progress :=
  match s.program.at? t.place with
  | none => .running (.resuming choices)
  | some (.find axis _ _) =>
    .running (.resuming (.among t.place t.trail (s.candidates axis t.here) :: choices))
  | some (.check anchor) =>
    if s.holds anchor t.here then .running (.following { t with place := t.place + 1 } choices)
    else .running (.resuming choices)
  | some .parent =>
    match t.here.bind s.forest.parent with
    | some p => .running (.following { t with place := t.place + 1, here := some p } choices)
    | none => .running (.resuming choices)
  | some (.split first second) =>
    .running (.following { t with place := first } (.branch { t with place := second } :: choices))
  | some (.jump target) => .running (.following { t with place := target } choices)
  | some .done =>
    if t.trail.isEmpty then .running (.resuming choices) else .found t.trail.reverse choices

/-- Takes up a choice point.  One that holds candidates hands out the next of them, and stays on
the stack with the others. -/
def resume (s : Search) (choice : Choice) (choices : List Choice) : Progress :=
  match choice with
  | .branch t => .running (.following t choices)
  | .among place trail candidates =>
    match s.program.at? place, candidates.next? s.forest with
    | some (.find _ test slots), some (n, others) =>
      if s.accepts test trail n then
        .running (.following ⟨place + 1, some n, ⟨n, slots⟩ :: trail⟩
          (.among place trail others :: choices))
      else .running (.resuming (.among place trail others :: choices))
    | _, _ => .running (.resuming choices)

/-- One step of a machine. -/
def step (s : Search) : Machine → Progress
  | .following t choices => s.follow t choices
  | .resuming [] => .exhausted
  | .resuming (choice :: choices) => s.resume choice choices

/-- Runs a machine until it finds a solution, which comes with the choice points left, or finds
that there is none.  A machine that never does either gives no answer. -/
def run (s : Search) (m : Machine) : Option (Option (List Visit × List Choice)) :=
  match s.step m with
  | .running m => s |>.run m
  | .found solution choices => some (some (solution, choices))
  | .exhausted => some none
partial_fixpoint

/-- The choice points of a machine that has done nothing yet. -/
def initial : List Choice := [.branch ⟨0, none, []⟩]

/-- The next solution of a machine with these choice points left. -/
def nextSolution (s : Search) (choices : List Choice) :
    Option (Option (List Visit × List Choice)) :=
  s.run (.resuming choices)

end Search

end TreeRules
