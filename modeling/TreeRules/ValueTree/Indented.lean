/-
Indented tree text: a node a line, beneath the nearest line above that is indented less.

  * `indented` writes a tree with four spaces a level, and `readIndented` reads one.
  * Indentation is the width in bytes of the blanks that a line starts with; lines of blanks alone
    are passed over.  A line that starts with a quote is one quoted value and nothing else; any
    other line is the value itself, without the blanks around it.
-/
import TreeRules.Text.Line
import TreeRules.ValueTree.Outline
import TreeRules.ValueTree.Error
import TreeRules.ValueTree.Literal

namespace TreeRules.ValueTree

open TreeRules.Text

/-! ### Writing -/

/-- The blanks before a line at `depth`. -/
def indentation (depth : Nat) : List Char := List.replicate (4 * depth) ' '

/-- The lines of a tree, without line feeds. -/
def indentedLines (tree : ValueTree) : List (List Char) :=
  tree.outline.map fun (depth, value) => indentation depth ++ writeLiteral value.toList

/-- The tree as indented text; the last line has no line feed. -/
def indented (tree : ValueTree) : String :=
  String.ofList (['\n'].intercalate tree.indentedLines)

/-! ### Reading a line -/

/-- The value that a line without blanks around it stands for, when it starts at `start`. -/
def readLine (start : Nat) (line : List Char) : Except FormatError String :=
  match line with
  | '"' :: cs =>
    match readQuoted cs with
    | none => .error (.unterminated start)
    | some part =>
      if part.rest.isEmpty then .ok (String.ofList part.value)
      else .error (.unexpected .textAfterQuote (start + 1 + part.width))
  | _ => .ok (String.ofList line)

/-! ### Reading lines -/

/-- Takes in a line with its line feed and its position, as `OpenLine.takeIn` does. -/
def takeLine (lines : List OpenLine) (line : Placed (List Char)) :
    Except FormatError (List OpenLine) := do
  let text := trim line.value
  if text.isEmpty then return lines
  let width := byteWidth (line.value.takeWhile isBlank)
  let value ← readLine (line.position + width) text
  match OpenLine.takeIn width value lines with
  | none => throw (.secondRoot line.position)
  | some lines => return lines

/-- Reads indented text. -/
def readIndented (text : String) : Except FormatError ValueTree := do
  match OpenLine.closeAll (← (placedLines text.toList).foldlM takeLine []) with
  | none => throw .empty
  | some tree => return tree

end TreeRules.ValueTree
