/-
Running rules on a document.

  * A pass finds all matches first and then replaces them one after another.  A match that has lost
    a node to an earlier replacement is skipped.
  * A rule that is repeated takes passes until one finds nothing.  At the limit of passes it is
    enough that nothing is left to be found.
  * A list of rules is run in cycles, each rule in its own mode, until a cycle replaces nothing.
-/
import TreeRules.Matching.Find
import TreeRules.Rule.Basic

namespace TreeRules

/-- What a run did. -/
structure Outcome where
  /-- The replacements made. -/
  applications : Nat := 0
  /-- The passes taken, also one that found nothing. -/
  passes : Nat := 0
  /-- The matches skipped. -/
  skipped : Nat := 0
  deriving DecidableEq, Repr

/-- The reasons why a run ends before it should. -/
inductive RunError where
  | compile (error : CompileError)
  | apply (error : ApplyError)
  /-- Something is left to be replaced at the limit of passes. -/
  | didNotConverge (passes applications : Nat)
  deriving DecidableEq, Repr

/-- The error in words, with nodes shown as the caller likes. -/
def RunError.message (shown : NodeId → String) : RunError → String
  | compile error => error.message
  | apply error => error.message shown
  | didNotConverge passes applications =>
    s!"transformation did not converge after {passes} passes ({applications} applications)"

/-- What one pass or cycle did. -/
structure Tally where
  applications : Nat := 0
  skipped : Nat := 0
  deriving DecidableEq, Repr

/-- Adds one more pass. -/
def Outcome.add (o : Outcome) (t : Tally) : Outcome :=
  { applications := o.applications + t.applications
    passes := o.passes + 1
    skipped := o.skipped + t.skipped }

/-- The predicates and limits by which rules are run. -/
structure Runner where
  predicates : Predicates := {}
  settings : Settings := {}

namespace Runner

/-- The rule has a match in the document. -/
def hasMatch (r : Runner) (rule : Rule) (d : Document) : Bool :=
  (rule.pattern.findFirst d.forest r.predicates r.settings d.root).isSome

/-- All nodes of the match are in the document. -/
def stillAttached (d : Document) (m : Match) : Bool := m.consumed.all d.contains

/-- Replaces matches one after another, and skips those that have lost a node. -/
def replaceAll (replacement : Replacement) (d : Document) (t : Tally) :
    List Match → Document × Except ApplyError Tally
  | [] => (d, .ok t)
  | m :: rest =>
    if stillAttached d m then
      match replacement.apply d m with
      | (d, .error e) => (d, .error e)
      | (d, .ok _) => replaceAll replacement d { t with applications := t.applications + 1 } rest
    else replaceAll replacement d { t with skipped := t.skipped + 1 } rest

/-- Finds all matches and replaces them. -/
def pass (r : Runner) (rule : Rule) (d : Document) : Document × Except ApplyError Tally :=
  replaceAll rule.replacement d {} (rule.pattern.findAll d.forest r.predicates r.settings d.root)

/-- Takes up to `left` passes more, until one finds nothing. -/
def repeatPasses (r : Runner) (rule : Rule) (d : Document) (o : Outcome) :
    (left : Nat) → Document × Except RunError Outcome
  | 0 =>
    if r.hasMatch rule d then (d, .error (.didNotConverge o.passes o.applications))
    else (d, .ok (o.add {}))
  | left + 1 =>
    match r.pass rule d with
    | (d, .error e) => (d, .error (.apply e))
    | (d, .ok t) =>
      if t.applications = 0 && t.skipped = 0 then (d, .ok (o.add t))
      else r.repeatPasses rule d (o.add t) left

/-- Runs a rule in its mode. -/
def run (r : Runner) (rule : Rule) (d : Document) : Document × Except RunError Outcome :=
  match r.predicates.check rule.pattern with
  | .error e => (d, .error (.compile e))
  | .ok () =>
    match rule.mode with
    | .once =>
      match r.pass rule d with
      | (d, .error e) => (d, .error (.apply e))
      | (d, .ok t) => (d, .ok (Outcome.add {} t))
    | .repeatedly => r.repeatPasses rule d {} r.settings.maxPasses

/-- Runs rules one after another. -/
def cycle (r : Runner) (d : Document) (t : Tally) : List Rule → Document × Except RunError Tally
  | [] => (d, .ok t)
  | rule :: rules =>
    match r.run rule d with
    | (d, .error e) => (d, .error e)
    | (d, .ok o) =>
      r.cycle d
        { applications := t.applications + o.applications, skipped := t.skipped + o.skipped } rules

/-- Takes up to `left` cycles more, until one replaces nothing. -/
def repeatCycles (r : Runner) (rules : List Rule) (d : Document) (o : Outcome) :
    (left : Nat) → Document × Except RunError Outcome
  | 0 =>
    if rules.any (r.hasMatch · d) then (d, .error (.didNotConverge o.passes o.applications))
    else (d, .ok (o.add {}))
  | left + 1 =>
    match r.cycle d {} rules with
    | (d, .error e) => (d, .error e)
    | (d, .ok t) =>
      if t.applications = 0 then (d, .ok (o.add t)) else r.repeatCycles rules d (o.add t) left

/-- Refuses rules that ask for an unknown predicate. -/
def checkAll (r : Runner) : List Rule → Except CompileError Unit
  | [] => .ok ()
  | rule :: rules => do
    r.predicates.check rule.pattern
    r.checkAll rules

/-- Runs a list of rules in cycles. -/
def runAll (r : Runner) (rules : List Rule) (d : Document) : Document × Except RunError Outcome :=
  match r.checkAll rules with
  | .error e => (d, .error (.compile e))
  | .ok () => r.repeatCycles rules d {} r.settings.maxPasses

end Runner

end TreeRules
