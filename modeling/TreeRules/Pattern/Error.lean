/-
Why a pattern, a template or a rule is refused.
-/
import TreeRules.Pattern.Token

namespace TreeRules

/-- What should have come next. -/
inductive Expected where
  | element
  | templateNode
  | closeParen
  | finish
  deriving DecidableEq, Repr

/-- What should have come next, in words. -/
def Expected.message : Expected → String
  | element => "expected a pattern element"
  | templateNode => "expected a template node"
  | closeParen => s!"expected {Token.closeParen.text}"
  | finish => "expected end of pattern"

/-- How a text breaks the notation. -/
inductive SyntaxFault where
  | unterminatedQuote
  | emptyPredicate
  | unterminatedPredicate
  | malformedBraces
  | unexpectedChar (c : Char)
  /-- Something else comes next, or nothing. -/
  | unexpected (expected : Expected) (found : Option Token)
  | quantifierAfterQuantifier
  | referenceWithChildren
  | missingTemplate
  deriving DecidableEq, Repr

/-- The fault in words. -/
def SyntaxFault.message : SyntaxFault → String
  | unterminatedQuote => "unterminated quoted literal"
  | emptyPredicate => "empty predicate reference"
  | unterminatedPredicate => "unterminated predicate reference"
  | malformedBraces => "expected '\x7bm\x7d', '\x7bm,\x7d' or '\x7bm,n\x7d'"
  | unexpectedChar c => s!"unexpected character '{c}'"
  | unexpected expected (some found) => s!"{expected.message}, found {found.text}"
  | unexpected expected none => s!"{expected.message}, found end of input"
  | quantifierAfterQuantifier => "quantifier follows a quantifier"
  | referenceWithChildren => "a capture reference cannot have children"
  | missingTemplate => "expected '->' followed by a replacement template"

/-- How the bounds of a repetition are out of order. -/
inductive QuantifierFault where
  /-- The number does not fit in 32 bits. -/
  | tooLarge (digits : String)
  | minExceedsMax (min max : Nat)
  | exceedsLimit (bound limit : Nat)
  /-- The body might be repeated forever without consuming a node. -/
  | unboundedEmpty
  /-- The repetition is compiled to more instructions than are allowed. -/
  | tooLong (limit : Nat)
  deriving DecidableEq, Repr

/-- The fault in words. -/
def QuantifierFault.message : QuantifierFault → String
  | tooLarge digits => s!"bound {digits} is too large"
  | minExceedsMax min max => s!"minimum {min} exceeds maximum {max}"
  | exceedsLimit bound limit => s!"bound {bound} exceeds the limit of {limit}"
  | unboundedEmpty => "unbounded repetition of a pattern that can match without consuming a node"
  | tooLong limit => s!"repetition expands to more than {limit} instructions"

/-- The reasons for refusing a text, each with the position of the piece at fault. -/
inductive CompileError where
  /-- The text does not follow the notation. -/
  | malformed (fault : SyntaxFault) (position : Nat)
  /-- A name is referred to where no capture of it has been declared. -/
  | undeclaredCapture (name : String) (position : Nat)
  /-- The bounds of a repetition are out of order. -/
  | invalidQuantifier (fault : QuantifierFault) (position : Nat)
  /-- No predicate has that name. -/
  | unknownPredicate (name : String) (position : Nat)
  deriving DecidableEq, Repr

namespace CompileError

/-- Where the piece at fault starts. -/
def position : CompileError → Nat
  | malformed _ position | undeclaredCapture _ position | invalidQuantifier _ position
  | unknownPredicate _ position => position

/-- The same error in a text that starts `offset` bytes earlier. -/
def shift (offset : Nat) : CompileError → CompileError
  | malformed fault position => malformed fault (position + offset)
  | undeclaredCapture name position => undeclaredCapture name (position + offset)
  | invalidQuantifier fault position => invalidQuantifier fault (position + offset)
  | unknownPredicate name position => unknownPredicate name (position + offset)

/-- The error in words. -/
def message : CompileError → String
  | malformed fault position => s!"syntax error at offset {position}: {fault.message}"
  | undeclaredCapture name position =>
    s!"reference to undeclared capture '{name}' at offset {position}"
  | invalidQuantifier fault position =>
    s!"invalid quantifier at offset {position}: {fault.message}"
  | unknownPredicate name position => s!"unknown predicate '[{name}]' at offset {position}"

end CompileError

end TreeRules
