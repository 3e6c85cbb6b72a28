/-
What a pattern means.

A pattern takes a way, as far as it has come, to the ways on which it can be continued, the
preferred ones first.  A way is the node that it has come to and the nodes consumed on it, each with
the names that it is captured under.  The meaning follows the pattern's own shape and knows nothing
of instructions, choice points or slots:

  * a test consumes each node along its axis that passes it and has not been consumed before;
  * steps follow one another, and branches stand side by side;
  * a body is repeated as often as is asked for, and then as often as is allowed.

A body that may be repeated without bound is repeated once at most for each node that can be
consumed.  Where every round consumes a node that is no bound at all, which `mean_unbounded` says.
-/
import TreeRules.Matching.Match
import TreeRules.Proofs.Forest.Alike

namespace TreeRules

/-- A consumed node and the names that it is captured under, the outermost first. -/
structure Consumed where
  node : NodeId
  names : List String
  deriving DecidableEq, Repr

/-- A way through a pattern, as far as it has come. -/
structure Way where
  /-- The current node, once a node has been consumed. -/
  here : Option NodeId := none
  /-- The nodes consumed, the latest first. -/
  log : List Consumed := []
  deriving DecidableEq, Repr

namespace Forest

/-- The nodes that lie along an axis from `n`, in document order. -/
def along (f : Forest) (axis : Axis) (n : NodeId) : List NodeId :=
  match axis with
  | .child => f.children n
  | .descendant => (f.preorder n).tail
  | .nextSibling => (f.nextSibling n).toList
  | .anySibling => f.siblings n

end Forest

namespace Way

/-- Consumes a node. -/
def consume (w : Way) (n : NodeId) (names : List String) : Way :=
  { here := some n, log := ⟨n, names⟩ :: w.log }

/-- The node has been consumed. -/
def consumed (w : Way) (n : NodeId) : Bool := w.log.any (·.node == n)

/-- The node most recently consumed under a name. -/
def bound (w : Way) (name : String) : Option NodeId :=
  (w.log.find? (·.names.contains name)).map (·.node)

/-- The ways that come of a way by going round `count` times. -/
def rounds (once : Way → List Way) : (count : Nat) → Way → List Way
  | 0, w => [w]
  | count + 1, w => (once w).flatMap (rounds once count)

/-- The ways that come of a way by going round up to `count` times; more rounds come first if it is
greedy, fewer if it is not. -/
def upTo (once : Way → List Way) (greedy : Bool) : (count : Nat) → Way → List Way
  | 0, w => [w]
  | count + 1, w =>
    let more := (once w).flatMap (upTo once greedy count)
    if greedy then more ++ [w] else w :: more

end Way

namespace Scene

/-- The node passes the test on that way. -/
def passes (s : Scene) (test : NodeTest) (w : Way) (n : NodeId) : Bool :=
  match test with
  | .any => true
  | .literal text => s.forest.value n == text
  | .predicate name => s.predicates.holds name (s.forest.value n)
  | .reference name => (w.bound name).any (s.forest.sameTree · n)

/-- The nodes that may come next: the start, as long as none has been consumed, and then those
along the axis. -/
def nearby (s : Scene) (axis : Axis) (w : Way) : List NodeId :=
  match w.here with
  | none => [s.start]
  | some n => s.forest.along axis n

/-- The nodes that the test may consume next. -/
def choices (s : Scene) (axis : Axis) (test : NodeTest) (w : Way) : List NodeId :=
  (s.nearby axis w).filter fun n => s.passes test w n && !w.consumed n

/-- The condition holds on that way. -/
def holds (s : Scene) (anchor : Anchor) (w : Way) : Bool :=
  match anchor with
  | .root => s.start == s.scanRoot
  | .leaf => w.here.any fun n => (s.forest.children n).isEmpty

/-- The most rounds in which a body can consume a node each. -/
def mostRounds (s : Scene) : Nat := s.forest.size + 1

/-- How often a body may be repeated beyond the `min` times that are asked for. -/
def extraRounds (s : Scene) (min : Nat) : Option Nat → Nat
  | some max => max - min
  | none => s.mostRounds

mutual

/-- The ways on which a pattern continues a way.  It is reached by `axis`, and the nodes that it
consumes are captured under `names`. -/
def mean (s : Scene) (names : List String) (axis : Axis) : Pattern → Way → List Way
  | .test asked, w => (s.choices axis asked w).map (w.consume · names)
  | .sequence steps, w => meanSteps s names axis steps w
  | .alternation branches, w => meanBranches s names axis branches w
  | .repetition body min max greedy, w =>
    (Way.rounds (mean s names axis body) min w).flatMap
      (Way.upTo (mean s names axis body) greedy (s.extraRounds min max))
  | .capture name body, w => mean s (names ++ [name]) axis body w
  | .anchor place, w => if s.holds place w then [w] else []
  | .parent, w => (w.here.bind s.forest.parent).toList.map ({ w with here := some · })

/-- The ways on which some steps, one after another, continue a way. -/
def meanSteps (s : Scene) (names : List String) (axis : Axis) :
    List (Option Axis × Pattern) → Way → List Way
  | [], w => [w]
  | (own, step) :: steps, w =>
    (mean s names (own.getD axis) step w).flatMap (meanSteps s names axis steps)

/-- The ways on which some branches continue a way. -/
def meanBranches (s : Scene) (names : List String) (axis : Axis) :
    List Pattern → Way → List Way
  | [], _ => []
  | branch :: branches, w => mean s names axis branch w ++ meanBranches s names axis branches w

end

section

variable (s : Scene) (names : List String) (axis : Axis)

theorem mean_sequence (steps : List (Option Axis × Pattern)) :
    s.mean names axis (.sequence steps) = s.meanSteps names axis steps := by
  funext w
  rw [mean]

theorem mean_alternation (branches : List Pattern) :
    s.mean names axis (.alternation branches) = s.meanBranches names axis branches := by
  funext w
  rw [mean]

theorem mean_repetition (body : Pattern) (min : Nat) (max : Option Nat) (greedy : Bool) :
    s.mean names axis (.repetition body min max greedy) = fun w =>
      (Way.rounds (s.mean names axis body) min w).flatMap
        (Way.upTo (s.mean names axis body) greedy (s.extraRounds min max)) := by
  funext w
  rw [mean]

/-- A body that is repeated no time at all leaves the way as it is. -/
theorem mean_never (body : Pattern) (greedy : Bool) :
    s.mean names axis (.repetition body 0 (some 0) greedy) = fun w => [w] := by
  funext w
  rw [mean, Way.rounds, List.flatMap_singleton, extraRounds, Way.upTo]

theorem mean_capture (name : String) (body : Pattern) :
    s.mean names axis (.capture name body) = s.mean (names ++ [name]) axis body := by
  funext w
  rw [mean]

theorem meanSteps_nil : s.meanSteps names axis [] = fun w => [w] := by
  funext w
  rw [meanSteps]

theorem meanSteps_cons (own : Option Axis) (step : Pattern)
    (steps : List (Option Axis × Pattern)) :
    s.meanSteps names axis ((own, step) :: steps) = fun w =>
      (s.mean names (own.getD axis) step w).flatMap (s.meanSteps names axis steps) := by
  funext w
  rw [meanSteps]

theorem meanBranches_singleton (branch : Pattern) :
    s.meanBranches names axis [branch] = s.mean names axis branch := by
  funext w
  rw [meanBranches, meanBranches, List.append_nil]

end

/-- What a pattern can consume from the start on, in order; a way on which it consumes no node at
all counts for nothing. -/
def results (s : Scene) (p : Pattern) : List (List Consumed) :=
  ((s.mean [] .child p {}).map (·.log.reverse)).filter (!·.isEmpty)

end Scene

end TreeRules
