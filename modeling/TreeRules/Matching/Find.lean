/-
Searching a forest for the matches of a pattern.

Matches are tried from each node of a subtree in document order.  Unless overlaps are allowed, a
match counts only if it keeps clear of the targets of all that counted before it: its own target
must not be one of them or lie above one, and it must not consume a node at or beneath one.
-/
import TreeRules.LazyList
import TreeRules.Matching.Match

namespace TreeRules

namespace Match

/-- The match runs into what is replaced at `claimed`. -/
def overlaps (f : Forest) (m : Match) (claimed : NodeId) : Bool :=
  f.encloses m.target claimed || m.consumed.any fun n => f.encloses claimed n

end Match

/-- A search of a subtree, as far as it has come. -/
structure Matches where
  /-- The nodes from which matches are still to be tried, the next one first. -/
  starts : List NodeId
  /-- The node from which matches are being tried, with the choice points left there. -/
  current : Option (NodeId × List Choice) := none
  /-- The targets of the matches reported. -/
  claimed : List NodeId := []
  /-- The number of matches reported. -/
  reported : Nat := 0

/-- What stays fixed during a search of a subtree. -/
structure Query where
  program : Program
  forest : Forest
  predicates : Predicates
  settings : Settings
  scanRoot : NodeId

namespace Query

/-- The program at work at a node. -/
def searchAt (q : Query) (start : NodeId) : Search :=
  { q with start }

/-- The search before it has begun. -/
def begin (q : Query) : Matches := { starts := [q.scanRoot] }

/-- The search when the node at hand is the next to be tried from. -/
def startAt (q : Query) (m : Matches) (start : NodeId) (rest : List NodeId) : Matches :=
  { m with
    starts := if q.program.isRooted then rest else q.forest.children start ++ rest
    current := some (start, Search.initial) }

/-- The search after a match has been reported. -/
def report (q : Query) (m : Matches) (found : Match) : Matches :=
  { m with
    claimed := if q.settings.allowOverlap then m.claimed else found.target :: m.claimed
    reported := m.reported + 1 }

/-- The match is passed over, since it runs into one that has been reported. -/
def passesOver (q : Query) (m : Matches) (found : Match) : Bool :=
  !q.settings.allowOverlap && m.claimed.any (found.overlaps q.forest)

/-- Goes on to the next match that is to be reported, which comes with the rest of the search, or
finds that there is none. -/
def next (q : Query) (m : Matches) : Option (Option (Match × Matches)) :=
  if q.settings.maxMatches ≤ m.reported then some none
  else match m.current with
    | none =>
      match m.starts with
      | [] => some none
      | start :: rest => q |>.next (q.startAt m start rest)
    | some (start, choices) => do
      match ← (q.searchAt start).nextSolution choices with
      | none => q |>.next { m with current := none }
      | some (solution, choices) =>
        let m := { m with current := some (start, choices) }
        match Match.ofVisits? q.program solution with
        | none => q |>.next m
        | some found =>
          if q.passesOver m found then q |>.next m else some (some (found, q.report m found))
partial_fixpoint

/-- Up to `left` matches more, worked out as they are asked for. -/
def remaining (q : Query) : (left : Nat) → Matches → LazyList Match
  | 0, _ => .nil
  | left + 1, m =>
    match q.next m with
    | some (some (found, m)) => .cons found fun _ => q.remaining left m
    | _ => .nil

end Query

namespace CompiledPattern

/-- The search of a subtree for matches of the pattern. -/
def query (p : CompiledPattern) (f : Forest) (predicates : Predicates) (settings : Settings)
    (scanRoot : NodeId) : Query :=
  { program := p.program, forest := f, predicates, settings, scanRoot }

/-- The matches in a subtree that a search reports. -/
def find (p : CompiledPattern) (f : Forest) (predicates : Predicates) (settings : Settings)
    (scanRoot : NodeId) : LazyList Match :=
  let q := p.query f predicates settings scanRoot
  q.remaining settings.maxMatches q.begin

/-- The first match that a search reports. -/
def findFirst (p : CompiledPattern) (f : Forest) (predicates : Predicates) (settings : Settings)
    (scanRoot : NodeId) : Option Match :=
  (p.find f predicates settings scanRoot).head?

/-- The matches that a search reports. -/
def findAll (p : CompiledPattern) (f : Forest) (predicates : Predicates) (settings : Settings)
    (scanRoot : NodeId) : List Match :=
  (p.find f predicates settings scanRoot).toList

/-- The preferred match that starts at a node. -/
def matchAt (p : CompiledPattern) (f : Forest) (predicates : Predicates) (n : NodeId) :
    Option Match := do
  let search : Search :=
    { forest := f, predicates, scanRoot := n, start := n, program := p.program }
  let (solution, _) ← (← search.nextSolution Search.initial)
  Match.ofVisits? p.program solution

end CompiledPattern

end TreeRules
