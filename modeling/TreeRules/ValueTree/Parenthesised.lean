/-
Parenthesised tree text: a value, then its children between parentheses if it has any.

  * `paren` writes a tree, and `readParen` reads one.
  * Reading goes in two steps.  `parenTokens` cuts the text into parentheses and values, and
    `ParenState.step` takes in one of these after another.  A fault of the first kind is found
    before one of the second, wherever the two stand.
-/
import TreeRules.ValueTree.Basic
import TreeRules.ValueTree.Error
import TreeRules.ValueTree.Literal

namespace TreeRules.ValueTree

open TreeRules.Text

/-! ### Writing -/

mutual

/-- The tree as parenthesised text. -/
def writeParen : ValueTree → List Char
  | node value [] => writeLiteral value.toList
  | node value (child :: children) =>
    writeLiteral value.toList ++ [' ', '('] ++ writeParen child ++ writeParens children ++ [')']

/-- Trees as parenthesised text, each with a space before it. -/
def writeParens : List ValueTree → List Char
  | [] => []
  | tree :: trees => ' ' :: writeParen tree ++ writeParens trees

end

/-- The tree as parenthesised text. -/
def paren (tree : ValueTree) : String := String.ofList tree.writeParen

/-! ### Tokens -/

/-- The pieces of parenthesised text. -/
inductive ParenToken where
  | openParen
  | closeParen
  | value (text : String)
  deriving DecidableEq, Repr

/-- Cuts a text that starts at position `start` into its pieces. -/
def parenTokens (start : Nat) : List Char → Except FormatError (List (Placed ParenToken))
  | [] => .ok []
  | c :: cs =>
    if isBlank c then parenTokens (start + c.utf8Size) cs
    else if c = '(' then do
      return ⟨.openParen, start⟩ :: (← parenTokens (start + 1) cs)
    else if c = ')' then do
      return ⟨.closeParen, start⟩ :: (← parenTokens (start + 1) cs)
    else if c = '"' then
      match h : readQuoted cs with
      | none => .error (.unterminated start)
      | some part => do
        have := length_rest_lt_of_readQuoted h
        return ⟨.value (String.ofList part.value), start⟩ ::
          (← parenTokens (start + 1 + part.width) part.rest)
    else do
      let bare := c :: cs.takeWhile (!endsBare ·)
      have := (List.dropWhile_sublist (!endsBare ·) (l := cs)).length_le
      return ⟨.value (String.ofList bare), start⟩ ::
        (← parenTokens (start + byteWidth bare) (cs.dropWhile (!endsBare ·)))
  termination_by cs => cs.length

/-! ### Reading -/

/-- A child list that is still open: where it was opened, the value of the node it belongs to,
and the children read so far, the last one first. -/
structure OpenList where
  position : Nat
  value : String
  before : List ValueTree

/-- How far reading has come. -/
structure ParenState where
  /-- The open child lists, the innermost first. -/
  levels : List OpenList := []
  /-- The value just read, which a child list may follow. -/
  last : Option String := none
  /-- The node without a parent, once it is complete. -/
  root : Option ValueTree := none

namespace ParenState

/-- Adds a complete node to the innermost open list, or makes it the root. -/
def place (s : ParenState) (tree : ValueTree) : ParenState :=
  match s.levels with
  | [] => { s with root := some tree }
  | level :: levels =>
    { s with levels := { level with before := tree :: level.before } :: levels }

/-- Completes the value just read as a node without children. -/
def settle (s : ParenState) : ParenState :=
  match s.last with
  | none => s
  | some value => { s with last := none }.place (node value [])

/-- Takes in one token. -/
def step (s : ParenState) (token : Placed ParenToken) : Except FormatError ParenState :=
  match token.value with
  | .value text =>
    let s := s.settle
    if s.levels.isEmpty && s.root.isSome then .error (.secondRoot token.position)
    else .ok { s with last := some text }
  | .openParen =>
    match s.last with
    | none => .error (.unexpected .openParen token.position)
    | some value =>
      .ok { s with levels := ⟨token.position, value, []⟩ :: s.levels, last := none }
  | .closeParen =>
    let s := s.settle
    match s.levels with
    | [] => .error (.unexpected .closeParen token.position)
    | level :: levels =>
      .ok ({ s with levels := levels }.place (node level.value level.before.reverse))

/-- What has been read when no token is left. -/
def finish (s : ParenState) : Except FormatError ValueTree :=
  let s := s.settle
  match s.levels, s.root with
  | level :: _, _ => .error (.unclosed level.position)
  | [], none => .error .empty
  | [], some tree => .ok tree

end ParenState

/-- The tree that the tokens spell. -/
def ofParenTokens (tokens : List (Placed ParenToken)) : Except FormatError ValueTree := do
  (← tokens.foldlM ParenState.step {}).finish

/-- Reads parenthesised text. -/
def readParen (text : String) : Except FormatError ValueTree := do
  ofParenTokens (← parenTokens 0 text.toList)

end TreeRules.ValueTree
