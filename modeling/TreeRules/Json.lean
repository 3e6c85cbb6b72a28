/-
JSON texts.

  * `Json.read` accepts exactly the texts of the standard: one value with blanks around it, no
    leading zeros, no raw control characters in strings, and surrogate escapes only in pairs.
  * A number is kept as it is written, so that `2`, `2.0` and `2e0` stay apart; an object keeps
    its members in order, also members of one name.
  * `Json.compact` and `Json.pretty` write a value without blanks, or a member a line.
-/
import TreeRules.Text.Width

namespace TreeRules

/-- A JSON value. -/
inductive Json where
  | null
  | bool (b : Bool)
  | number (digits : String)
  | string (s : String)
  | array (items : List Json)
  | object (members : List (String × Json))
  deriving Inhabited

namespace Json

/-- A natural number as a value. -/
def ofNat (n : Nat) : Json := number (toString n)

/-- The natural number that a value is, if it is written with digits alone. -/
def nat? : Json → Option Nat
  | number digits => if digits.toList.all Char.isDigit then digits.toNat? else none
  | _ => none

/-- The value of an object's first member of that name. -/
def get? (name : String) : Json → Option Json
  | object members => members.lookup name
  | _ => none

/-! ### Reading -/

/-- The blanks that may stand between the pieces of a text. -/
def isSpace (c : Char) : Bool := c == ' ' || c == '\t' || c == '\n' || c == '\r'

/-- The text without the blanks it starts with. -/
def skipSpace (cs : List Char) : List Char := cs.dropWhile isSpace

/-- The value of a hexadecimal digit. -/
def hexValue? (c : Char) : Option Nat :=
  if c.isDigit then some (c.toNat - '0'.toNat)
  else if 'a' ≤ c && c ≤ 'f' then some (c.toNat - 'a'.toNat + 10)
  else if 'A' ≤ c && c ≤ 'F' then some (c.toNat - 'A'.toNat + 10)
  else none

/-- The number that four hexadecimal digits stand for. -/
def hexUnit? (a b c d : Char) : Option Nat := do
  return (((← hexValue? a) * 16 + (← hexValue? b)) * 16 + (← hexValue? c)) * 16 + (← hexValue? d)

/-- The character that a backslash and `c` stand for. -/
def simpleEscape? : Char → Option Char
  | '"' => some '"'
  | '\\' => some '\\'
  | '/' => some '/'
  | 'b' => some '\x08'
  | 'f' => some '\x0c'
  | 'n' => some '\n'
  | 'r' => some '\r'
  | 't' => some '\t'
  | _ => none

/-- The unit is the first of a surrogate pair. -/
def isHighSurrogate (u : Nat) : Bool := 0xD800 ≤ u && u ≤ 0xDBFF

/-- The unit is the second of a surrogate pair. -/
def isLowSurrogate (u : Nat) : Bool := 0xDC00 ≤ u && u ≤ 0xDFFF

/-- Reads a string whose opening quote has been read, up to and with the closing one. -/
def readString : List Char → Option (List Char × List Char)
  | [] => none
  | '"' :: cs => some ([], cs)
  | '\\' :: 'u' :: a :: b :: c :: d :: cs => do
    let unit ← hexUnit? a b c d
    if isHighSurrogate unit then
      match cs with
      | '\\' :: 'u' :: e :: f :: g :: h :: cs =>
        let low ← hexUnit? e f g h
        if isLowSurrogate low then
          let (s, rest) ← readString cs
          return (Char.ofNat (0x10000 + (unit - 0xD800) * 0x400 + (low - 0xDC00)) :: s, rest)
        else none
      | _ => none
    else if isLowSurrogate unit then none
    else
      let (s, rest) ← readString cs
      return (Char.ofNat unit :: s, rest)
  | '\\' :: c :: cs => do
    let c ← simpleEscape? c
    let (s, rest) ← readString cs
    return (c :: s, rest)
  | c :: cs => do
    if c.toNat < 0x20 then none
    let (s, rest) ← readString cs
    return (c :: s, rest)

/-- Takes a run of digits off the front; it must not be empty. -/
def readDigits (cs : List Char) : Option (List Char × List Char) :=
  let digits := cs.takeWhile Char.isDigit
  if digits.isEmpty then none else some (digits, cs.dropWhile Char.isDigit)

/-- Takes the whole part of a number off the front: a zero, or digits that do not start with one. -/
def readWhole (cs : List Char) : Option (List Char × List Char) := do
  let (digits, rest) ← readDigits cs
  if digits.head? = some '0' && digits.length > 1 then none else some (digits, rest)

/-- Takes a point and digits off the front, if there is a point. -/
def readFraction (cs : List Char) : Option (List Char × List Char) :=
  match cs with
  | '.' :: cs => (readDigits cs).map fun (digits, rest) => ('.' :: digits, rest)
  | _ => some ([], cs)

/-- Takes an exponent off the front, if there is one. -/
def readExponent (cs : List Char) : Option (List Char × List Char) :=
  match cs with
  | e :: cs =>
    if e = 'e' || e = 'E' then
      let (sign, rest) := match cs with
        | '+' :: rest => (['+'], rest)
        | '-' :: rest => (['-'], rest)
        | _ => ([], cs)
      (readDigits rest).map fun (digits, rest) => (e :: sign ++ digits, rest)
    else some ([], e :: cs)
  | [] => some ([], [])

/-- Reads a number. -/
def readNumber (cs : List Char) : Option (Json × List Char) := do
  let (sign, cs) := match cs with
    | '-' :: cs => (['-'], cs)
    | _ => ([], cs)
  let (whole, cs) ← readWhole cs
  let (fraction, cs) ← readFraction cs
  let (exponent, cs) ← readExponent cs
  return (number (String.ofList (sign ++ whole ++ fraction ++ exponent)), cs)

/-- The rest of the text, if it starts with the word. -/
def readWord (word : List Char) (cs : List Char) : Option (List Char) :=
  if word.isPrefixOf cs then some (cs.drop word.length) else none

mutual

/-- Reads a value that no more than `bound` characters make up. -/
def readValue (bound : Nat) (cs : List Char) : Option (Json × List Char) :=
  match bound with
  | 0 => none
  | bound + 1 =>
    match skipSpace cs with
    | 'n' :: cs => (readWord "ull".toList cs).map (null, ·)
    | 't' :: cs => (readWord "rue".toList cs).map (bool true, ·)
    | 'f' :: cs => (readWord "alse".toList cs).map (bool false, ·)
    | '"' :: cs => (readString cs).map fun (s, rest) => (string (String.ofList s), rest)
    | '[' :: cs =>
      match skipSpace cs with
      | ']' :: cs => some (array [], cs)
      | cs => (readItems bound cs).map fun (items, rest) => (array items, rest)
    | '\x7b' :: cs =>
      match skipSpace cs with
      | '\x7d' :: cs => some (object [], cs)
      | cs => (readMembers bound cs).map fun (members, rest) => (object members, rest)
    | cs => readNumber cs

/-- Reads the items of an array, of which there is at least one, and the closing bracket. -/
def readItems (bound : Nat) (cs : List Char) : Option (List Json × List Char) :=
  match bound with
  | 0 => none
  | bound + 1 => do
    let (item, cs) ← readValue bound cs
    match skipSpace cs with
    | ',' :: cs =>
      let (items, cs) ← readItems bound cs
      return (item :: items, cs)
    | ']' :: cs => return ([item], cs)
    | _ => none

/-- Reads the members of an object, of which there is at least one, and the closing brace. -/
def readMembers (bound : Nat) (cs : List Char) : Option (List (String × Json) × List Char) :=
  match bound with
  | 0 => none
  | bound + 1 =>
    match skipSpace cs with
    | '"' :: cs => do
      let (name, cs) ← readString cs
      match skipSpace cs with
      | ':' :: cs =>
        let (value, cs) ← readValue bound cs
        match skipSpace cs with
        | ',' :: cs =>
          let (members, cs) ← readMembers bound cs
          return ((String.ofList name, value) :: members, cs)
        | '\x7d' :: cs => return ([(String.ofList name, value)], cs)
        | _ => none
      | _ => none
    | _ => none

end

/-- Reads a text that holds one value. -/
def read (text : String) : Option Json := do
  let cs := text.toList
  let (value, rest) ← readValue (cs.length + 1) cs
  if (skipSpace rest).isEmpty then some value else none

/-! ### Writing -/

/-- A number below 16 as a lower-case hexadecimal digit. -/
def hexDigit (n : Nat) : Char := Nat.digitChar n

/-- A character as it stands in a string. -/
def escapeChar (c : Char) : List Char :=
  match c with
  | '"' => ['\\', '"']
  | '\\' => ['\\', '\\']
  | '\x08' => ['\\', 'b']
  | '\t' => ['\\', 't']
  | '\n' => ['\\', 'n']
  | '\x0c' => ['\\', 'f']
  | '\r' => ['\\', 'r']
  | c =>
    if c.toNat < 0x20 then
      ['\\', 'u', '0', '0', hexDigit (c.toNat / 16), hexDigit (c.toNat % 16)]
    else [c]

/-- A text as a string literal. -/
def quoted (s : String) : String :=
  String.ofList ('"' :: s.toList.flatMap escapeChar ++ ['"'])

mutual

/-- The value without blanks. -/
def compact : Json → String
  | null => "null"
  | bool b => if b then "true" else "false"
  | number digits => digits
  | string s => quoted s
  | array items => "[" ++ ",".intercalate (compactItems items) ++ "]"
  | object members => "\x7b" ++ ",".intercalate (compactMembers members) ++ "\x7d"

/-- The items without blanks. -/
def compactItems : List Json → List String
  | [] => []
  | item :: items => compact item :: compactItems items

/-- The members without blanks. -/
def compactMembers : List (String × Json) → List String
  | [] => []
  | (name, value) :: members => (quoted name ++ ":" ++ compact value) :: compactMembers members

end

/-- The start of a line at `depth`, two spaces a level. -/
def margin (depth : Nat) : String := String.ofList ('\n' :: List.replicate (2 * depth) ' ')

/-- Pieces between brackets, each on a line of its own beneath `depth`; nothing but the brackets
if there are none. -/
def bracketed (depth : Nat) (opening closing : String) : List String → String
  | [] => opening ++ closing
  | pieces =>
    opening ++ ",".intercalate (pieces.map (margin (depth + 1) ++ ·)) ++ margin depth ++ closing

mutual

/-- The value with every item and member on a line of its own, inside `depth` others. -/
def prettyAt (depth : Nat) : Json → String
  | null => "null"
  | bool b => if b then "true" else "false"
  | number digits => digits
  | string s => quoted s
  | array items => bracketed depth "[" "]" (prettyItems (depth + 1) items)
  | object members => bracketed depth "\x7b" "\x7d" (prettyMembers (depth + 1) members)

/-- The items, each as it stands on its line. -/
def prettyItems (depth : Nat) : List Json → List String
  | [] => []
  | item :: items => prettyAt depth item :: prettyItems depth items

/-- The members, each as it stands on its line. -/
def prettyMembers (depth : Nat) : List (String × Json) → List String
  | [] => []
  | (name, value) :: members =>
    (quoted name ++ ": " ++ prettyAt depth value) :: prettyMembers depth members

end

/-- The value with every item and member on a line of its own. -/
def pretty (value : Json) : String := prettyAt 0 value

end Json

end TreeRules
