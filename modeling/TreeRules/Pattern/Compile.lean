/-
From the text of a pattern to a pattern that can be searched for.
-/
import TreeRules.Pattern.Lexer
import TreeRules.Pattern.Parser
import TreeRules.Program
import TreeRules.Settings

namespace TreeRules

open TreeRules.Text

/-- A pattern that can be searched for. -/
structure CompiledPattern where
  /-- The text that it was read from. -/
  source : String
  pattern : Pattern
  program : Program
  /-- The template after the arrow, if there is an arrow. -/
  template : Option Template
  /-- The predicates that the pattern asks for, with the positions where it does. -/
  predicates : List (String × Nat)

namespace Token

/-- The predicates that some tokens ask for, with the positions where they do. -/
def predicateReferences (tokens : List (Placed Token)) : List (String × Nat) :=
  tokens.filterMap fun token =>
    match token.value with
    | predicate name => some (name, token.position)
    | _ => none

end Token

namespace Template

/-- Refuses a template that refers to a name that is not declared. -/
def check (t : Template) (declared : List String) : Except CompileError Unit :=
  match t.undeclared? declared with
  | none => .ok ()
  | some (name, position) => .error (.undeclaredCapture name position)

/-- Reads a template that stands alone. -/
def read (text : String) : Except CompileError Template := do
  let tokens ← Token.readAll text
  let ctx : ReadContext := { finish := byteWidth text.toList, maxBound := 0 }
  let (template, s) ← readFrom ctx { rest := tokens }
  s.finish ctx
  return template

end Template

namespace CompiledPattern

/-- The template after an arrow, if an arrow comes next. -/
def readArrow (ctx : ReadContext) (s : ReadState) :
    Except CompileError (Option Template × ReadState) :=
  match s.rest with
  | ⟨.arrow, _⟩ :: rest => do
    let (template, s) ← Template.readFrom ctx { s with rest }
    return (some template, s)
  | _ => .ok (none, s)

/-- Reads and compiles a pattern, which a template may follow after an arrow. -/
def read (text : String) (settings : Settings) : Except CompileError CompiledPattern := do
  let tokens ← Token.readAll text
  let ctx : ReadContext :=
    { finish := byteWidth text.toList, maxBound := settings.maxBound }
  let (pattern, s) ← Pattern.readPattern ctx tokens
  let (template, s) ← readArrow ctx s
  s.finish ctx
  match template with
  | some template => template.check pattern.captureNames
  | none => pure ()
  return {
    source := text
    pattern
    program := pattern.compile
    template
    predicates := Token.predicateReferences tokens }

end CompiledPattern

end TreeRules
