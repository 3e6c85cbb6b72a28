/-
Arguments of the command line.

    [options] search PATTERN | replace RULE [--repeat] | transform FILE

  * Options may stand before the command or after its name.  One that is given at both places has
    the value given after the name; none may be given twice at one place.
  * An option's value follows an equals sign or is the next argument, which then must not look
    like an option.
  * After `--` every argument is an operand.
  * The value of an option is looked at when the next argument of the same place is taken in, or
    when the place ends.  So a wrong value right before the command's name is no hindrance to
    asking for help after it.
-/
import TreeRules.Rule.Basic
import TreeRules.ValueTree.Format

namespace TreeRules.CommandLine

/-- The options. -/
inductive Flag where
  | tree
  | inputFormat
  | outputFormat
  | output
  | logFilter
  | logFormat
  | config
  | maxPasses
  | maxMatches
  | allowOverlap
  | repeated
  deriving DecidableEq, Repr

namespace Flag

/-- The options that every command takes. -/
def common : List Flag :=
  [tree, inputFormat, outputFormat, output, logFilter, logFormat, config, maxPasses, maxMatches,
    allowOverlap]

/-- The option as it is written after two hyphens. -/
def name : Flag → String
  | tree => "tree"
  | inputFormat => "input-format"
  | outputFormat => "output-format"
  | output => "output"
  | logFilter => "log-filter"
  | logFormat => "log-format"
  | config => "config"
  | maxPasses => "max-passes"
  | maxMatches => "max-matches"
  | allowOverlap => "allow-overlap"
  | repeated => "repeat"

/-- The option has a value. -/
def takesValue : Flag → Bool
  | allowOverlap | repeated => false
  | _ => true

end Flag

/-- A number of passes or matches, with or without a plus sign. -/
def count? (text : String) : Option Nat :=
  let digits := match text.toList with
    | '+' :: digits => digits
    | digits => digits
  if digits.isEmpty || !digits.all Char.isDigit then none
  else (String.ofList digits).toNat?.filter (· < Nat.pow 2 64)

/-- The tree text of that name; case counts. -/
def treeFormat? : String → Option TextFormat
  | "paren" => some .paren
  | "indented" => some .indented
  | _ => none

/-- The option may have that value. -/
def Flag.accepts (flag : Flag) (value : String) : Bool :=
  match flag with
  | tree | logFilter => true
  | inputFormat | outputFormat => (treeFormat? value).isSome
  | output => value == "human" || value == "json"
  | logFormat => value == "compact" || value == "json"
  | config => !value.isEmpty
  | maxPasses | maxMatches => (count? value).isSome
  | allowOverlap | repeated => value.isEmpty

/-- Why there is nothing to do. -/
inductive Stop where
  /-- The arguments are wrong. -/
  | usage
  | help
  | version
  deriving DecidableEq, Repr

/-- The commands. -/
inductive CommandName where
  | search
  | replace
  | transform
  deriving DecidableEq, Repr

namespace CommandName

/-- The command of that name. -/
def ofName? : String → Option CommandName
  | "search" => some search
  | "replace" => some replace
  | "transform" => some transform
  | _ => none

/-- The options that may follow the command's name. -/
def flags : CommandName → List Flag
  | replace => .repeated :: Flag.common
  | _ => Flag.common

end CommandName

/-- What one place has been given so far. -/
structure Given where
  /-- Options whose values have been looked at. -/
  settled : List (Flag × String) := []
  /-- An option whose value has not been looked at yet. -/
  pending : Option (Flag × String) := none
  /-- An option whose value comes next. -/
  awaiting : Option Flag := none
  operand : Option String := none
  /-- Only operands can follow. -/
  onlyOperands : Bool := false

namespace Given

/-- Notes an option; it must have a fitting value and not have been given before. -/
def note (g : Given) (flag : Flag) (value : String) : Except Stop Given :=
  if flag.accepts value && !g.settled.any (·.1 == flag) then
    .ok { g with settled := (flag, value) :: g.settled }
  else .error .usage

/-- Looks at the value that has not been looked at yet; there must be no option without one. -/
def settle (g : Given) : Except Stop Given :=
  match g.awaiting, g.pending with
  | some _, _ => .error .usage
  | none, some (flag, value) => { g with pending := none }.note flag value
  | none, none => .ok g

/-- The value of an option. -/
def get? (g : Given) (flag : Flag) : Option String := g.settled.lookup flag

end Given

/-- A place where arguments stand: before the command's name, or after it. -/
abbrev Spot := Option CommandName

/-- The options that may stand there. -/
def allowedFlags : Spot → List Flag
  | none => Flag.common
  | some command => command.flags

/-- Takes in an argument that starts with two hyphens, which are left out here. -/
def takeLong (spot : Spot) (g : Given) (text : List Char) : Except Stop Given := do
  let name := String.ofList (text.takeWhile (· != '='))
  let value := match text.dropWhile (· != '=') with
    | _ :: value => some (String.ofList value)
    | [] => none
  let g ← g.settle
  match (allowedFlags spot).find? (·.name == name), value with
  | some flag, some value => if flag.takesValue then g.note flag value else throw .usage
  | some flag, none =>
    if flag.takesValue then return { g with awaiting := some flag } else g.note flag ""
  | none, none =>
    if name == "help" then throw .help
    else if name == "version" && spot.isNone then throw .version
    else throw .usage
  | none, some _ => throw .usage

/-- Takes in an argument that starts with one hyphen, which is left out here. -/
def takeShort (spot : Spot) (g : Given) (text : List Char) : Except Stop Given := do
  let _ ← g.settle
  match text, spot with
  | 'h' :: _, _ => throw .help
  | 'V' :: _, none => throw .version
  | _, _ => throw .usage

/-- Takes in an operand: a command has one, and none stands before the command's name. -/
def takeOperand (spot : Spot) (g : Given) (text : String) : Except Stop Given := do
  let g ← g.settle
  match spot, g.operand with
  | some _, none => return { g with operand := some text }
  | _, _ => throw .usage

/-- Takes in an argument. -/
def takeArgument (spot : Spot) (g : Given) (argument : String) : Except Stop Given :=
  if g.onlyOperands then takeOperand spot g argument
  else match argument.toList with
    | ['-', '-'] => do return { ← g.settle with onlyOperands := true }
    | '-' :: '-' :: text => takeLong spot g text
    | ['-'] => takeValue
    | '-' :: text => takeShort spot g text
    | _ => takeValue
where
  /-- The argument is the value that comes next, or an operand. -/
  takeValue : Except Stop Given :=
    match g.awaiting with
    | some flag =>
      .ok { g with awaiting := none, pending := some (flag, argument) }
    | none => takeOperand spot g argument

/-- The arguments before the command's name, the command, and the arguments after it. -/
def takeToCommand (g : Given) :
    List String → Except Stop (Given × CommandName × List String)
  | [] => .error .usage
  | argument :: arguments =>
    match if g.awaiting.isSome || g.onlyOperands then none else CommandName.ofName? argument with
    | some command => .ok (g, command, arguments)
    | none => do takeToCommand (← takeArgument none g argument) arguments

/-- What is to be done. -/
inductive Command where
  | search (pattern : String)
  | replace (rule : String) (mode : Mode)
  | transform (path : String)
  deriving DecidableEq, Repr

/-- How results are written. -/
inductive OutputStyle where
  | human
  | json
  deriving DecidableEq, Repr

/-- What is to be done, and how. -/
structure Options where
  command : Command
  /-- The text of the tree; it is read from the standard input if there is none. -/
  tree : Option String
  inputFormat : TextFormat
  outputFormat : TextFormat
  output : OutputStyle
  /-- The file that limits are read from. -/
  config : Option String
  maxPasses : Option Nat
  maxMatches : Option Nat
  allowOverlap : Bool

/-- The files that are asked for. -/
def Options.files (o : Options) : List String :=
  o.config.toList ++ match o.command with
    | .transform path => [path]
    | .search _ | .replace .. => []

/-- The options that were given before the command's name and after it. -/
def Options.ofGiven (before after : Given) (command : Command) : Options :=
  let get (flag : Flag) : Option String := (after.get? flag).or (before.get? flag)
  let format (flag : Flag) : TextFormat := ((get flag).bind treeFormat?).getD .paren
  { command
    tree := get .tree
    inputFormat := format .inputFormat
    outputFormat := format .outputFormat
    output := if get .output == some "json" then .json else .human
    config := get .config
    maxPasses := (get .maxPasses).bind count?
    maxMatches := (get .maxMatches).bind count?
    allowOverlap := (get .allowOverlap).isSome }

/-- The command with its operand.  The name of a file must not be empty. -/
def Command.make (name : CommandName) (given : Given) : Except Stop Command :=
  match name, given.operand with
  | .search, some pattern => .ok (.search pattern)
  | .replace, some rule =>
    .ok (.replace rule (if (given.get? .repeated).isSome then .repeatedly else .once))
  | .transform, some path => if path.isEmpty then .error .usage else .ok (.transform path)
  | _, none => .error .usage

/-- Reads the arguments. -/
def Options.read (arguments : List String) : Except Stop Options := do
  let (before, name, rest) ← takeToCommand {} arguments
  let after ← (← rest.foldlM (takeArgument (some name)) {}).settle
  let command ← Command.make name after
  let before ← before.settle
  return ofGiven before after command

end TreeRules.CommandLine
