/-
Trees from lines that are indented by any widths.

A line lies beneath the nearest line before it that is indented less.  Only the lines that a later
line may still lie beneath are kept while the lines are taken in; of these, each is indented more
than the next one out.
-/
import TreeRules.ValueTree.Basic

namespace TreeRules.ValueTree

/-- A line that later lines may still lie beneath: its indentation, its value, and the children
read so far, the last one first. -/
structure OpenLine where
  width : Nat
  value : String
  before : List ValueTree

namespace OpenLine

/-- The node as far as it has been read. -/
def tree (line : OpenLine) : ValueTree := node line.value line.before.reverse

/-- Adds a complete node beneath the line. -/
def add (line : OpenLine) (tree : ValueTree) : OpenLine :=
  { line with before := tree :: line.before }

/-- Completes the innermost lines that are not indented less than `width`, except the outermost.
The lines are given as the innermost one and those around it. -/
def closeTo (width : Nat) (line : OpenLine) : List OpenLine → OpenLine × List OpenLine
  | [] => (line, [])
  | outer :: outers =>
    if width ≤ line.width then closeTo width (outer.add line.tree) outers
    else (line, outer :: outers)

/-- Takes in one more line.  The open lines are given innermost first, and there are none until
the first line has been taken in.  No line may be indented as little as the first. -/
def takeIn (width : Nat) (value : String) : List OpenLine → Option (List OpenLine)
  | [] => some [⟨width, value, []⟩]
  | innermost :: outers =>
    let (parent, outers) := closeTo width innermost outers
    if width ≤ parent.width then none else some (⟨width, value, []⟩ :: parent :: outers)

/-- The tree that the open lines make when no line is left. -/
def closeAll : List OpenLine → Option ValueTree
  | [] => none
  | innermost :: outers => some (outers.foldl (fun line outer => outer.add line.tree) innermost).tree

end OpenLine

/-- The tree of these indentations and values in document order, if there is one. -/
def ofOutline (outline : List (Nat × String)) : Option ValueTree := do
  OpenLine.closeAll (← outline.foldlM (fun lines (width, value) => OpenLine.takeIn width value lines) [])

end TreeRules.ValueTree
