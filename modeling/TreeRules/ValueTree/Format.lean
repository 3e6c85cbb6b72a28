/-
The two kinds of tree text under one type.
-/
import TreeRules.NameError
import TreeRules.ValueTree.Parenthesised
import TreeRules.ValueTree.Indented

namespace TreeRules

/-- The ways of writing a tree. -/
inductive TextFormat where
  | paren
  | indented
  deriving DecidableEq, Repr

namespace TextFormat

/-- The format's name. -/
def name : TextFormat → String
  | paren => "paren"
  | indented => "indented"

/-- The format of that name; ASCII letters count alike in both cases. -/
def ofName (name : String) : Except NameError TextFormat :=
  match name.toLower with
  | "paren" => .ok paren
  | "indented" => .ok indented
  | _ => .error .unknown

/-- Reads a tree. -/
def read : TextFormat → String → Except FormatError ValueTree
  | paren => ValueTree.readParen
  | indented => ValueTree.readIndented

/-- Writes a tree. -/
def write : TextFormat → ValueTree → String
  | paren => ValueTree.paren
  | indented => ValueTree.indented

end TextFormat

end TreeRules
