/-
Why a tree text is refused.
-/

namespace TreeRules

/-- What stands where a tree text allows nothing of the kind. -/
inductive Misplaced where
  | openParen
  | closeParen
  | textAfterQuote
  deriving DecidableEq, Repr

/-- The words for a misplaced piece of text. -/
def Misplaced.description : Misplaced → String
  | openParen => "'('"
  | closeParen => "')'"
  | textAfterQuote => "text after quoted value"

/-- The reasons for refusing a tree text; positions count bytes. -/
inductive FormatError where
  /-- The text holds no node. -/
  | empty
  /-- Something stands where it may not. -/
  | unexpected (found : Misplaced) (position : Nat)
  /-- The child list opened here is never closed. -/
  | unclosed (position : Nat)
  /-- The value whose opening quote stands here has no closing quote. -/
  | unterminated (position : Nat)
  /-- A second node without a parent. -/
  | secondRoot (position : Nat)
  deriving DecidableEq, Repr

namespace FormatError

/-- Where the text is at fault; an empty text has no such place. -/
def position? : FormatError → Option Nat
  | empty => none
  | unexpected _ position | unclosed position | unterminated position | secondRoot position =>
    some position

/-- The error in words. -/
def message : FormatError → String
  | empty => "tree text is empty"
  | unexpected found position => s!"unexpected {found.description} at offset {position}"
  | unclosed position => s!"unclosed '(' at offset {position}"
  | unterminated position => s!"unterminated quoted value starting at offset {position}"
  | secondRoot position => s!"second root node at offset {position}"

end FormatError

end TreeRules
