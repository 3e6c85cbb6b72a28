/-
Programs: patterns as lists of instructions.

A pattern is compiled at a place in a list, so that the targets of its jumps are known:
`Pattern.codeLength` says how long its code will be.  Bounded repetitions are written out, and an
unbounded one becomes a loop, which holds the only jump backwards.
-/
import TreeRules.Pattern.Basic

namespace TreeRules

/-- Whether a capture binds one node or a list of nodes. -/
inductive CaptureKind where
  | single
  | multiple
  deriving DecidableEq, Repr

/-- The kind's name. -/
def CaptureKind.name : CaptureKind → String
  | single => "single"
  | multiple => "multiple"

/-- A name under which nodes are captured. -/
structure CaptureSlot where
  name : String
  kind : CaptureKind
  deriving DecidableEq, Repr

/-- An instruction.  Places in the list count from zero. -/
inductive Instruction where
  /-- Consumes a node along the axis that passes the test, and records it in each of the slots.
  The first node consumed is the start of the match, whatever the axis. -/
  | find (axis : Axis) (test : NodeTest) (slots : List Nat)
  /-- Goes on where the condition holds. -/
  | check (anchor : Anchor)
  /-- Steps to the parent of the current node. -/
  | parent
  /-- Goes on at `first`, and afterwards at `second`. -/
  | split (first second : Nat)
  /-- Goes on at `target`. -/
  | jump (target : Nat)
  /-- Ends a match. -/
  | done
  deriving DecidableEq, Repr

/-- The instruction as the listing shows it. -/
def Instruction.text : Instruction → String
  | find axis test slots =>
    s!"FIND {axis.name} {test.text}" ++ String.join (slots.map fun slot => s!" @{slot}")
  | check anchor => s!"ASSERT {anchor.name}"
  | parent => "PARENT"
  | split first second => s!"SPLIT {first}, {second}"
  | jump target => s!"JUMP {target}"
  | done => "MATCH"

/-- A program: its instructions, and the names under which it captures. -/
structure Program where
  instructions : Array Instruction
  captures : List CaptureSlot

namespace Pattern

/-! ### Captures -/

/-- Declares a name.  A name that is declared again may bind more than one node. -/
def declare (name : String) (kind : CaptureKind) (slots : List CaptureSlot) : List CaptureSlot :=
  if slots.any (·.name == name) then
    slots.map fun slot => if slot.name = name then { slot with kind := .multiple } else slot
  else slots ++ [⟨name, kind⟩]

mutual

/-- The captures of a pattern, after those in `slots`; `repeated` says that it lies within a
repetition.  What is never repeated even once declares nothing. -/
def declareCaptures (repeated : Bool) (slots : List CaptureSlot) : Pattern → List CaptureSlot
  | test _ | anchor _ | parent => slots
  | sequence steps => declareInSteps repeated slots steps
  | alternation branches => declareInBranches repeated slots branches
  | repetition body min max _ =>
    if min = 0 && max = some 0 then slots else declareCaptures true slots body
  | capture name body =>
    let kind := if !repeated && body.consumesExactlyOne then .single else .multiple
    declareCaptures repeated (declare name kind slots) body

/-- The captures of some steps. -/
def declareInSteps (repeated : Bool) (slots : List CaptureSlot) :
    List (Option Axis × Pattern) → List CaptureSlot
  | [] => slots
  | (_, step) :: steps => declareInSteps repeated (declareCaptures repeated slots step) steps

/-- The captures of some branches. -/
def declareInBranches (repeated : Bool) (slots : List CaptureSlot) :
    List Pattern → List CaptureSlot
  | [] => slots
  | branch :: branches =>
    declareInBranches repeated (declareCaptures repeated slots branch) branches

end

/-- The captures of a pattern, in the order in which they are first declared. -/
def captureSlots (p : Pattern) : List CaptureSlot := declareCaptures false [] p

/-! ### Code -/

/-- A choice between going into the code at `body` and going on at `finish`, the better one
first. -/
def choice (greedy : Bool) (body finish : Nat) : Instruction :=
  if greedy then .split body finish else .split finish body

/-- `count` copies of code of length `length`, the first one at `start`. -/
def copies (code : Nat → List Instruction) (length start : Nat) : Nat → List Instruction
  | 0 => []
  | count + 1 => code start ++ copies code length (start + length) count

/-- `count` copies of code of length `length`, with a choice before each whether to go on at
`finish` instead. -/
def optionalCopies (code : Nat → List Instruction) (length finish : Nat) (greedy : Bool)
    (start : Nat) : Nat → List Instruction
  | 0 => []
  | count + 1 =>
    choice greedy (start + 1) finish :: code (start + 1) ++
      optionalCopies code length finish greedy (start + 1 + length) count

/-- Code of length `length` again and again. -/
def loop (code : Nat → List Instruction) (length : Nat) (greedy : Bool) (start : Nat) :
    List Instruction :=
  choice greedy (start + 1) (start + length + 2) :: code (start + 1) ++ [.jump start]

mutual

/-- The code of a pattern at place `start`.  The pattern is reached by `axis`, and lies within
captures whose places among `names` are `active`, the outermost first. -/
def code (names : List String) (active : List Nat) (axis : Axis) (start : Nat) :
    Pattern → List Instruction
  | test asked => [.find axis asked active]
  | sequence steps => codeOfSteps names active axis start steps
  | alternation branches =>
    codeOfBranches names active axis start
      (start + branchesLength branches + 2 * (branches.length - 1)) branches
  | repetition body min max greedy =>
    let once := fun start => code names active axis start body
    let length := codeLength body
    let after := start + min * length
    copies once length start min ++ match max with
      | some max =>
        optionalCopies once length (after + (max - min) * (length + 1)) greedy after (max - min)
      | none => loop once length greedy after
  | capture name body => code names (active ++ [names.idxOf name]) axis start body
  | anchor place => [.check place]
  | parent => [.parent]

/-- The code of some steps, one after another. -/
def codeOfSteps (names : List String) (active : List Nat) (axis : Axis) (start : Nat) :
    List (Option Axis × Pattern) → List Instruction
  | [] => []
  | (own, step) :: steps =>
    code names active (own.getD axis) start step ++
      codeOfSteps names active axis (start + codeLength step) steps

/-- The code of some branches, each of which goes on at `finish`. -/
def codeOfBranches (names : List String) (active : List Nat) (axis : Axis) (start finish : Nat) :
    List Pattern → List Instruction
  | [] => []
  | [branch] => code names active axis start branch
  | branch :: branches =>
    let next := start + codeLength branch + 2
    .split (start + 1) next :: code names active axis (start + 1) branch ++
      .jump finish :: codeOfBranches names active axis next finish branches

end

/-- The program of a pattern. -/
def compile (p : Pattern) : Program :=
  let names := p.captureSlots.map CaptureSlot.name
  let body := code names [] .child 0 p
  { instructions := (body ++ [Instruction.done]).toArray
    captures := p.captureSlots }

end Pattern

namespace Program

/-- The instruction at a place. -/
def at? (program : Program) (place : Nat) : Option Instruction := program.instructions[place]?

/-- The place of a name among the captures. -/
def slot? (program : Program) (name : String) : Option Nat :=
  program.captures.findIdx? (·.name == name)

/-- A match can only start where the search starts. -/
def isRooted (program : Program) : Bool := program.at? 0 == some (.check .root)

/-- Each instruction with its place, as the listing shows them. -/
def lines (program : Program) : List String :=
  program.instructions.toList.zipIdx.map fun (instruction, place) => s!"{place}: {instruction.text}"

/-- The listing: an instruction a line. -/
def listing (program : Program) : String := "\n".intercalate program.lines

end Program

end TreeRules
