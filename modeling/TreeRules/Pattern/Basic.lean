/-
Patterns: what a search looks for.

A pattern consumes nodes one after another.  A test consumes one node, which lies along some axis
from the node consumed before it; anchors and the parent step consume none.
-/
import TreeRules.Text.Quoted

namespace TreeRules

/-- Where the next node lies, seen from the current one. -/
inductive Axis where
  /-- Directly beneath it. -/
  | child
  /-- Anywhere beneath it. -/
  | descendant
  /-- Right after it among its siblings. -/
  | nextSibling
  /-- Anywhere else among its siblings. -/
  | anySibling
  deriving DecidableEq, Repr

namespace Axis

/-- The axis in words. -/
def name : Axis → String
  | child => "child"
  | descendant => "descendant"
  | nextSibling => "next_sibling"
  | anySibling => "any_sibling"

/-- The axis as a pattern writes it. -/
def symbol : Axis → String
  | child => "/"
  | descendant => "//"
  | nextSibling => ","
  | anySibling => "&"

end Axis

/-- What is asked of a node. -/
inductive NodeTest where
  /-- Its text is this one. -/
  | literal (text : String)
  /-- Nothing. -/
  | any
  /-- The predicate of that name holds of its text. -/
  | predicate (name : String)
  /-- Its subtree looks like that of the node most recently captured under that name. -/
  | reference (name : String)
  deriving DecidableEq, Repr

/-- The test as listings show it. -/
def NodeTest.text : NodeTest → String
  | literal text => Text.quote text
  | any => "."
  | predicate name => s!"[{name}]"
  | reference name => s!"${name}"

/-- A condition on the place that a match has come to. -/
inductive Anchor where
  /-- The match starts where the search started. -/
  | root
  /-- The current node has no children. -/
  | leaf
  deriving DecidableEq, Repr

/-- The anchor's name. -/
def Anchor.name : Anchor → String
  | root => "root"
  | leaf => "leaf"

/-- A pattern. -/
inductive Pattern where
  /-- Consumes one node that passes the test. -/
  | test (test : NodeTest)
  /-- Each step in turn.  A step without an axis of its own is reached by the axis by which the
  sequence is reached. -/
  | sequence (steps : List (Option Axis × Pattern))
  /-- One of the branches; earlier ones are tried first. -/
  | alternation (branches : List Pattern)
  /-- The body again and again, at least `min` times and at most `max` times; more times are tried
  first if it is greedy, fewer if it is not. -/
  | repetition (body : Pattern) (min : Nat) (max : Option Nat) (greedy : Bool)
  /-- The body, with the nodes that it consumes recorded under a name. -/
  | capture (name : String) (body : Pattern)
  /-- Nothing, where the condition holds. -/
  | anchor (anchor : Anchor)
  /-- Steps to the parent of the current node. -/
  | parent
  deriving Inhabited

namespace Pattern

mutual

/-- The pattern may match without consuming a node. -/
def canBeEmpty : Pattern → Bool
  | test _ => false
  | sequence steps => allCanBeEmpty steps
  | alternation branches => anyCanBeEmpty branches
  | repetition body min _ _ => min == 0 || canBeEmpty body
  | capture _ body => canBeEmpty body
  | anchor _ | parent => true

/-- All steps may match without consuming a node. -/
def allCanBeEmpty : List (Option Axis × Pattern) → Bool
  | [] => true
  | (_, step) :: steps => canBeEmpty step && allCanBeEmpty steps

/-- Some branch may match without consuming a node. -/
def anyCanBeEmpty : List Pattern → Bool
  | [] => false
  | branch :: branches => canBeEmpty branch || anyCanBeEmpty branches

end

mutual

/-- Every match of the pattern consumes exactly one node, as can be told from the pattern's outer
layers. -/
def consumesExactlyOne : Pattern → Bool
  | test _ => true
  | capture _ body => consumesExactlyOne body
  | alternation branches => allConsumeExactlyOne branches
  | sequence _ | repetition .. | anchor _ | parent => false

/-- Every branch consumes exactly one node. -/
def allConsumeExactlyOne : List Pattern → Bool
  | [] => true
  | branch :: branches => consumesExactlyOne branch && allConsumeExactlyOne branches

end

mutual

/-- The number of instructions that the pattern is compiled to. -/
def codeLength : Pattern → Nat
  | test _ | anchor _ | parent => 1
  | sequence steps => stepsLength steps
  | alternation branches => branchesLength branches + 2 * (branches.length - 1)
  | repetition body min max _ =>
    min * codeLength body + match max with
      | some max => (max - min) * (codeLength body + 1)
      | none => codeLength body + 2
  | capture _ body => codeLength body

/-- The number of instructions that the steps are compiled to. -/
def stepsLength : List (Option Axis × Pattern) → Nat
  | [] => 0
  | (_, step) :: steps => codeLength step + stepsLength steps

/-- The number of instructions that the branches themselves are compiled to. -/
def branchesLength : List Pattern → Nat
  | [] => 0
  | branch :: branches => codeLength branch + branchesLength branches

end

mutual

/-- The names under which the pattern captures, after the names in `seen`, each once, in the order
in which they are first declared. -/
def captureNamesAfter (seen : List String) : Pattern → List String
  | test _ | anchor _ | parent => seen
  | sequence steps => captureNamesOfSteps seen steps
  | alternation branches => captureNamesOfBranches seen branches
  | repetition body _ _ _ => captureNamesAfter seen body
  | capture name body =>
    captureNamesAfter (if seen.contains name then seen else seen ++ [name]) body

/-- The names under which the steps capture, after those in `seen`. -/
def captureNamesOfSteps (seen : List String) : List (Option Axis × Pattern) → List String
  | [] => seen
  | (_, step) :: steps => captureNamesOfSteps (captureNamesAfter seen step) steps

/-- The names under which the branches capture, after those in `seen`. -/
def captureNamesOfBranches (seen : List String) : List Pattern → List String
  | [] => seen
  | branch :: branches => captureNamesOfBranches (captureNamesAfter seen branch) branches

end

/-- The names under which the pattern captures, each once, in the order in which they are first
declared. -/
def captureNames (p : Pattern) : List String := captureNamesAfter [] p

end Pattern

end TreeRules
