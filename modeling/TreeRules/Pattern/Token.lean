/-
The tokens of patterns, templates and rules.
-/
import TreeRules.Text.Quoted

namespace TreeRules

/-- A token. -/
inductive Token where
  | word (text : String)
  | quoted (text : String)
  /-- A dollar sign and a name. -/
  | reference (name : String)
  /-- A name between brackets. -/
  | predicate (name : String)
  /-- Bounds between braces; `{2}` and `{2,2}` are one token. -/
  | braces (min : Nat) (max : Option Nat)
  | dot
  | slash
  | doubleSlash
  | comma
  | ampersand
  | bar
  | openParen
  | closeParen
  | question
  | star
  | plus
  | colon
  | dollar
  | up
  | arrow
  deriving DecidableEq, Repr

/-- The token as messages show it. -/
def Token.text : Token → String
  | word text => s!"'{text}'"
  | quoted text => Text.quote text
  | reference name => s!"'${name}'"
  | predicate name => s!"'[{name}]'"
  | braces min (some max) =>
    if min = max then s!"'\x7b{min}\x7d'" else s!"'\x7b{min},{max}\x7d'"
  | braces min none => s!"'\x7b{min},\x7d'"
  | dot => "'.'"
  | slash => "'/'"
  | doubleSlash => "'//'"
  | comma => "','"
  | ampersand => "'&'"
  | bar => "'|'"
  | openParen => "'('"
  | closeParen => "')'"
  | question => "'?'"
  | star => "'*'"
  | plus => "'+'"
  | colon => "':'"
  | dollar => "'$'"
  | up => "'>'"
  | arrow => "'->'"

end TreeRules
