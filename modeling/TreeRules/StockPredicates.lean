/-
Predicates that are of use for many kinds of tree.
-/

namespace TreeRules

/-- A predicate on texts. -/
inductive StockPredicate where
  /-- Holds of every text. -/
  | always
  /-- Holds of no text. -/
  | never
  /-- Holds of a whole number that fits in 64 bits with its sign. -/
  | integer
  /-- Holds of the empty text. -/
  | empty
  /-- Holds of one text. -/
  | equals (text : String)
  /-- Holds of the texts that start with a text. -/
  | startsWith (text : String)
  /-- Holds of the texts of a length, counted in characters. -/
  | hasLength (n : Nat)
  deriving DecidableEq, Repr

/-- The number that a non-empty run of decimal digits stands for. -/
def decimal? (digits : List Char) : Option Nat :=
  if digits.isEmpty || !digits.all Char.isDigit then none
  else some (digits.foldl (fun n d => 10 * n + (d.toNat - '0'.toNat)) 0)

/-- The text is a whole number, with or without a sign, that fits in 64 bits with its sign. -/
def isInteger (text : String) : Bool :=
  match text.toList with
  | '-' :: digits => (decimal? digits).any (· ≤ Nat.pow 2 63)
  | '+' :: digits => (decimal? digits).any (· < Nat.pow 2 63)
  | digits => (decimal? digits).any (· < Nat.pow 2 63)

/-- The predicate holds of the text. -/
def StockPredicate.holds : StockPredicate → String → Bool
  | always, _ => true
  | never, _ => false
  | integer, text => isInteger text
  | empty, text => text.isEmpty
  | equals expected, text => text == expected
  | startsWith start, text => start.toList.isPrefixOf text.toList
  | hasLength n, text => text.length == n

end TreeRules
