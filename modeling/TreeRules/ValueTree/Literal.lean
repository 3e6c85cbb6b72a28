/-
Values as tree texts write them.

A value that is empty or holds a blank, a parenthesis, a quote or a backslash is written between
double quotes, with line feeds and carriage returns as `\n` and `\r`, and a backslash before
every quote and backslash.  Any other value is written as it is.
-/
import TreeRules.Text.Blank
import TreeRules.Text.Width

namespace TreeRules.ValueTree

open TreeRules.Text

/-- A character that ends a bare value in parenthesised text. -/
def endsBare (c : Char) : Bool :=
  isBlank c || c == '(' || c == ')' || c == '"'

/-- The value cannot be written bare. -/
def needsQuotes (cs : List Char) : Bool :=
  cs.isEmpty || cs.any fun c => endsBare c || c == '\\'

/-- A character of a quoted value as it is written. -/
def escapeChar (c : Char) : List Char :=
  if c = '\n' then ['\\', 'n']
  else if c = '\r' then ['\\', 'r']
  else if c = '"' then ['\\', '"']
  else if c = '\\' then ['\\', '\\']
  else [c]

/-- The character that a backslash and `c` stand for. -/
def unescapeChar (c : Char) : Char :=
  if c = 'n' then '\n' else if c = 'r' then '\r' else c

/-- A value as it is written. -/
def writeLiteral (cs : List Char) : List Char :=
  if needsQuotes cs then '"' :: cs.flatMap escapeChar ++ ['"'] else cs

/-- Reads a quoted value whose opening quote has been read; there may be no closing quote. -/
def readQuoted : List Char → Option (Taken (List Char))
  | [] => none
  | '\\' :: [] => none
  | '\\' :: c :: cs => (readQuoted cs).map (·.cons (unescapeChar c) (1 + c.utf8Size))
  | c :: cs =>
    if c = '"' then some ⟨[], 1, cs⟩ else (readQuoted cs).map (·.cons c c.utf8Size)

theorem length_rest_lt_of_readQuoted {cs : List Char} {part : Taken (List Char)}
    (h : readQuoted cs = some part) : part.rest.length < cs.length := by
  fun_induction readQuoted cs generalizing part with
  | case1 => simp at h
  | case2 => simp at h
  | case3 c cs ih =>
    obtain ⟨inner, hinner, rfl⟩ := Option.map_eq_some_iff.1 h
    have := ih hinner
    simp [Taken.cons]
    omega
  | case4 cs =>
    obtain rfl := Option.some.inj h
    simp
  | case5 c cs _ _ _ ih =>
    obtain ⟨inner, hinner, rfl⟩ := Option.map_eq_some_iff.1 h
    have := ih hinner
    simp [Taken.cons]
    omega

end TreeRules.ValueTree
