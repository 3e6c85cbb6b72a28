/-
Rules: a pattern, what its matches are replaced by, and how often.
-/
import TreeRules.NameError
import TreeRules.Rule.Replacement
import TreeRules.Text.Line

namespace TreeRules

open TreeRules.Text

/-- How often a rule is applied. -/
inductive Mode where
  /-- To the matches that are there at first. -/
  | once
  /-- Until there is no match. -/
  | repeatedly
  deriving DecidableEq, Repr

namespace Mode

/-- The mode's name. -/
def name : Mode → String
  | once => "once"
  | repeatedly => "repeat"

/-- The mode of that name; ASCII letters count alike in both cases. -/
def ofName (name : String) : Except NameError Mode :=
  match name.toLower with
  | "once" => .ok once
  | "repeat" => .ok repeatedly
  | _ => .error .unknown

end Mode

/-- A rule. -/
structure Rule where
  pattern : CompiledPattern
  replacement : Replacement
  mode : Mode

namespace Rule

/-- A rule of these parts.  A template may refer only to captures of the pattern. -/
def make (pattern : CompiledPattern) (replacement : Replacement) (mode : Mode) :
    Except CompileError Rule := do
  match replacement with
  | .template t => t.check pattern.pattern.captureNames
  | .callback _ => pure ()
  return { pattern, replacement, mode }

/-- Reads a rule: a pattern, an arrow and a template. -/
def read (text : String) (mode : Mode) (settings : Settings) : Except CompileError Rule := do
  let pattern ← CompiledPattern.read text settings
  match pattern.template with
  | none => throw (.malformed .missingTemplate (byteWidth text.toList))
  | some t => return { pattern, replacement := .template t, mode }

/-- Reads the rule on a line, if there is one: the line may be blank, or start with a number sign
after blanks.  An error tells the position in the text that the line belongs to. -/
def readLine (settings : Settings) (line : Placed (List Char)) :
    Except CompileError (Option Rule) :=
  let text := trim line.value
  if text.isEmpty || text.head? == some '#' then .ok none
  else
    let width := byteWidth (line.value.takeWhile isBlank)
    match Rule.read (String.ofList text) .once settings with
    | .error e => .error (e.shift (line.position + width))
    | .ok rule => .ok (some rule)

/-- Reads rules, one a line, each of which is applied once in a pass. -/
def readAll (text : String) (settings : Settings) : Except CompileError (List Rule) := do
  return (← (placedLines text.toList).mapM (readLine settings)).filterMap id

end Rule

end TreeRules
