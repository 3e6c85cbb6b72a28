/-
The command line: from arguments, files and standard input to output and exit code.

The limits are read first, then the tree, then the pattern or the rules; the first thing that is
wrong is reported, and nothing else is written then.
-/
import TreeRules.CommandLine.Arguments
import TreeRules.Rule.Run

namespace TreeRules.CommandLine

/-- What the command line finds around it. -/
structure World where
  /-- Reads a file, or says why it cannot be read. -/
  file : String → Except String ByteArray
  /-- What the standard input holds. -/
  stdin : ByteArray
  /-- How nodes are shown in messages. -/
  shown : NodeId → String

/-- What the command line does in the end. -/
structure Result where
  exit : UInt32
  stdout : String := ""
  stderr : String := ""

/-- The reasons why a command fails. -/
inductive Failure where
  | readInput (reason : String)
  | tree (error : FormatError)
  | readConfig (path reason : String)
  | parseConfig (path : String)
  | readRules (path reason : String)
  | compile (error : CompileError)
  | transform (error : RunError)

/-- The failure in words, with nodes shown as the caller likes. -/
def Failure.message (shown : NodeId → String) : Failure → String
  | readInput reason => s!"failed to read the tree from stdin: {reason}"
  | tree error => s!"failed to parse the tree: {error.message}"
  | readConfig path reason => s!"failed to read configuration {path}: {reason}"
  | parseConfig path => s!"invalid configuration {path}"
  | readRules path reason => s!"failed to read rules {path}: {reason}"
  | compile error => s!"invalid pattern: {error.message}"
  | transform error => s!"transformation failed: {error.message shown}"

/-- The bytes as a text, or why they are none. -/
def decodeText (bytes : ByteArray) : Except String String :=
  match String.fromUTF8? bytes with
  | some text => .ok text
  | none => .error "stream did not contain valid UTF-8"

/-- The text of a file, or why it cannot be had. -/
def World.readText (w : World) (path : String) : Except String String := do
  decodeText (← w.file path)

/-! ### Results in words -/

/-- The nodes of a forest as the output shows them. -/
def showNode (o : Options) (f : Forest) (n : NodeId) : String := o.outputFormat.write (f.tree n)

/-- A match as a JSON value. -/
def matchJson (o : Options) (f : Forest) (m : Match) : Json :=
  .object [
    ("start", .string (showNode o f m.start)),
    ("target", .string (showNode o f m.target)),
    ("captures", .object (m.captures.map fun (name, captured) =>
      (name, .array (captured.nodes.map fun n => .string (showNode o f n)))))]

/-- A match as lines for people to read; `number` counts the matches from one. -/
def matchLines (o : Options) (f : Forest) (m : Match) (number : Nat) : List String :=
  s!"match {number}: {showNode o f m.target}" :: m.captures.map fun (name, captured) =>
    s!"  ${name} = " ++ ", ".intercalate (captured.nodes.map (showNode o f))

/-- The output of a search. -/
def showMatches (o : Options) (f : Forest) (found : List Match) : String :=
  match o.output with
  | .json => (Json.object [("matches", .array (found.map (matchJson o f)))]).pretty ++ "\n"
  | .human =>
    let lines :=
      if found.isEmpty then ["no matches"]
      else (found.zipIdx 1).flatMap fun (m, number) => matchLines o f m number
    String.join (lines.map (· ++ "\n"))

/-- The output of a run. -/
def showOutcome (o : Options) (d : Document) (outcome : Outcome) : String :=
  let tree := o.outputFormat.write d.tree
  match o.output with
  | .json =>
    (Json.object [
      ("tree", .string tree),
      ("applications", .ofNat outcome.applications),
      ("passes", .ofNat outcome.passes),
      ("skipped", .ofNat outcome.skipped)]).pretty ++ "\n"
  | .human => tree ++ "\n"

/-! ### Commands -/

/-- The limits: those of the file, if there is one, with those of the options in their place. -/
def readSettings (w : World) (o : Options) : Except Failure Settings := do
  let s ← match o.config with
    | none => pure {}
    | some path =>
      let text ← (w.readText path).mapError (.readConfig path)
      match Settings.read? text with
      | none => throw (.parseConfig path)
      | some s => pure s
  return { s with
    maxPasses := o.maxPasses.getD s.maxPasses
    maxMatches := o.maxMatches.getD s.maxMatches
    allowOverlap := o.allowOverlap || s.allowOverlap }

/-- The document to work on. -/
def readDocument (w : World) (o : Options) : Except Failure Document := do
  let text ← match o.tree with
    | some text => pure text
    | none => (decodeText w.stdin).mapError .readInput
  let tree ← (o.inputFormat.read text).mapError .tree
  return .ofTree tree

/-- Does what the options ask for; the answer is the output. -/
def execute (w : World) (o : Options) : Except Failure String := do
  let settings ← readSettings w o
  let d ← readDocument w o
  let runner : Runner := { settings }
  match o.command with
  | .search text =>
    let p ← (CompiledPattern.read text settings).mapError .compile
    return showMatches o d.forest (p.findAll d.forest {} settings d.root)
  | .replace text mode =>
    let rule ← (Rule.read text mode settings).mapError .compile
    let (d, result) := runner.run rule d
    return showOutcome o d (← result.mapError .transform)
  | .transform path =>
    let text ← (w.readText path).mapError (.readRules path)
    let rules ← (Rule.readAll text settings).mapError .compile
    let (d, result) := runner.runAll rules d
    return showOutcome o d (← result.mapError .transform)

/-- How the arguments are to be given. -/
def usage : String :=
  "Usage: treepace [OPTIONS] <search PATTERN | replace RULE [--repeat] | transform FILE>\n"

/-- What is written when there is nothing to do. -/
def stopped : Stop → Result
  | .usage => { exit := 2, stderr := usage }
  | .help => { exit := 0, stdout := usage }
  | .version => { exit := 0, stdout := "treepace 0.1.0\n" }

/-- Does what the options ask for, and writes the output or why there is none. -/
def perform (w : World) (o : Options) : Result :=
  match execute w o with
  | .error failure => { exit := 1, stderr := s!"treepace: {failure.message w.shown}\n" }
  | .ok output => { exit := 0, stdout := output }

/-- Runs the command line. -/
def run (w : World) (arguments : List String) : Result :=
  match Options.read arguments with
  | .error stop => stopped stop
  | .ok options => perform w options

end TreeRules.CommandLine
