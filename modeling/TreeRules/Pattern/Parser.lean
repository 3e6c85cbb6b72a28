/-
Reading a pattern or a template from tokens.

    pattern   := ['/' | '//'] branches
    branches  := sequence ('|' sequence)*
    sequence  := element mark* ([axis] element mark*)*
    mark      := '$' | '>'
    element   := word ':' element | primary [quantifier ['?']]
    primary   := word | quoted | '.' | predicate | reference | '(' branches ')'
    template  := nothing | node (',' node)*
    node      := (word | quoted) ['/' (node | '(' node (',' node)* ')')] | reference

  * Elements that stand side by side are joined by the child axis.
  * A reference in a pattern names a capture whose element has ended before it.
  * Every reader answers with what is left of the tokens, and with the fact that it is less than it
    was given, or no more for readers of what may be absent.  So reading ends.
-/
import TreeRules.Pattern.Basic
import TreeRules.Pattern.Error
import TreeRules.Template.Basic
import TreeRules.Text.Width

namespace TreeRules

open TreeRules.Text

/-- The most instructions that one repetition may be compiled to. -/
def maxCodeLength : Nat := 65536

/-- What stays fixed while a text is read. -/
structure ReadContext where
  /-- The width of the text in bytes. -/
  finish : Nat
  /-- The largest bound that a quantifier may have. -/
  maxBound : Nat

/-- How far reading has come. -/
structure ReadState where
  /-- The tokens not yet read. -/
  rest : List (Placed Token)
  /-- The names of the captures whose elements have ended, in order. -/
  closed : List String := []

/-- What was read, with a state in which fewer tokens are left than in `s`. -/
abbrev Shorter (s : ReadState) (α : Type) :=
  { r : α × ReadState // r.2.rest.length < s.rest.length }

/-- What was read, with a state in which no more tokens are left than in `s`. -/
abbrev NotLonger (s : ReadState) (α : Type) :=
  { r : α × ReadState // r.2.rest.length ≤ s.rest.length }

/-- Fewer tokens are left when the first one is taken. -/
theorem length_lt_of_eq_cons {tokens tokens' : List (Placed Token)} {token : Placed Token}
    (htokens : tokens = token :: tokens') : tokens'.length < tokens.length := by
  rw [htokens]
  exact Nat.lt_succ_self _

namespace ReadState

/-- The next token. -/
def peek (s : ReadState) : Option Token := s.rest.head?.map (·.value)

/-- Where the next token stands, or where the text ends. -/
def position (ctx : ReadContext) (s : ReadState) : Nat :=
  match s.rest with
  | [] => ctx.finish
  | token :: _ => token.position

/-- The error that something else should have come next. -/
def unexpected (ctx : ReadContext) (s : ReadState) (expected : Expected) : CompileError :=
  .malformed (.unexpected expected s.peek) (s.position ctx)

/-- Refuses tokens that are left over. -/
def finish (ctx : ReadContext) (s : ReadState) : Except CompileError Unit :=
  if s.rest.isEmpty then .ok () else .error (s.unexpected ctx .finish)

end ReadState

namespace Token

/-- An element may start with the token. -/
def startsElement : Token → Bool
  | word _ | quoted _ | dot | predicate _ | reference _ | openParen => true
  | _ => false

/-- The axis that the token stands for. -/
def axis? : Token → Option Axis
  | slash => some .child
  | doubleSlash => some .descendant
  | comma => some .nextSibling
  | ampersand => some .anySibling
  | _ => none

/-- The bounds that the token stands for. -/
def quantifier? : Token → Option (Nat × Option Nat)
  | question => some (0, some 1)
  | star => some (0, none)
  | plus => some (1, none)
  | braces min max => some (min, max)
  | _ => none

/-- The step that uses no node and follows an element. -/
def mark? : Token → Option Pattern
  | dollar => some (.anchor .leaf)
  | up => some .parent
  | _ => none

end Token

namespace Pattern

/-! ### Patterns -/

/-- The steps that use no node, as long as they follow one another, and the tokens after them. -/
def readMarks : List (Placed Token) → List (Option Axis × Pattern) × List (Placed Token)
  | [] => ([], [])
  | token :: rest =>
    match token.value.mark? with
    | none => ([], token :: rest)
    | some mark =>
      let (marks, rest) := readMarks rest
      ((none, mark) :: marks, rest)

theorem length_readMarks (tokens : List (Placed Token)) :
    (readMarks tokens).2.length ≤ tokens.length := by
  fun_induction readMarks tokens with
  | case1 => simp
  | case2 => simp
  | case3 token rest _ _ marks rest' h ih =>
    rw [h] at ih
    simp at ih ⊢
    omega

/-- A sequence of these steps; a step alone needs no sequence around it. -/
def ofSteps : List (Option Axis × Pattern) → Pattern
  | [(_, step)] => step
  | steps => .sequence steps

/-- An alternation of these branches; a branch alone needs no alternation around it. -/
def ofBranches : List Pattern → Pattern
  | [branch] => branch
  | branches => .alternation branches

/-- Why `body` must not be repeated from `min` to `max` times, apart from its length. -/
def quantifierFault? (ctx : ReadContext) (body : Pattern) (min : Nat) (max : Option Nat) :
    Option QuantifierFault :=
  let bound := max.getD min
  if max.any (min > ·) then some (.minExceedsMax min bound)
  else if bound > ctx.maxBound then some (.exceedsLimit bound ctx.maxBound)
  else if max.isNone && body.canBeEmpty then some .unboundedEmpty
  else none

/-- Reads the quantifier that may follow `body`. -/
def readQuantifier (ctx : ReadContext) (body : Pattern) (s : ReadState) :
    Except CompileError (NotLonger s Pattern) :=
  match h : s.rest with
  | [] => .ok ⟨(body, s), Nat.le_refl _⟩
  | token :: rest =>
    match token.value.quantifier? with
    | none => .ok ⟨(body, s), Nat.le_refl _⟩
    | some (min, max) =>
      let lazily := (rest.head?.map (·.value)) == some .question
      let after : ReadState := { s with rest := if lazily then rest.tail else rest }
      match quantifierFault? ctx body min max with
      | some fault => .error (.invalidQuantifier fault token.position)
      | none =>
        if (after.peek.bind Token.quantifier?).isSome then
          .error (.malformed .quantifierAfterQuantifier (after.position ctx))
        else
          let repeated := Pattern.repetition body min max (!lazily)
          if repeated.codeLength > maxCodeLength then
            .error (.invalidQuantifier (.tooLong maxCodeLength) token.position)
          else .ok ⟨(repeated, after), by
            simp only [after, h]
            split <;> simp
            omega⟩

mutual

/-- Reads sequences with bars between them. -/
def readBranches (ctx : ReadContext) (s : ReadState) :
    Except CompileError (Shorter s Pattern) := do
  let ⟨(first, s₁), h₁⟩ ← readSequence ctx s
  let ⟨(others, s₂), h₂⟩ ← readMoreBranches ctx s₁
  return ⟨(ofBranches (first :: others), s₂), by simp only at h₁ h₂ ⊢; omega⟩
  termination_by (s.rest.length, 4)

/-- Reads the sequences that follow the first, each after a bar. -/
def readMoreBranches (ctx : ReadContext) (s : ReadState) :
    Except CompileError (NotLonger s (List Pattern)) :=
  match h : s.rest with
  | ⟨.bar, _⟩ :: rest => do
    let ⟨(branch, s₁), h₁⟩ ← readSequence ctx { s with rest }
    let ⟨(branches, s₂), h₂⟩ ← readMoreBranches ctx s₁
    return ⟨(branch :: branches, s₂), by simp only [h, List.length_cons] at h₁ h₂ ⊢; omega⟩
  | _ => .ok ⟨([], s), Nat.le_refl _⟩
  termination_by (s.rest.length, 5)
  decreasing_by
  · exact Prod.Lex.left _ _ (length_lt_of_eq_cons h)
  · exact Prod.Lex.left _ _ (Nat.lt_trans h₁ (length_lt_of_eq_cons h))

/-- Reads elements with axes between them. -/
def readSequence (ctx : ReadContext) (s : ReadState) :
    Except CompileError (Shorter s Pattern) := do
  let ⟨(first, s₁), h₁⟩ ← readElement ctx s
  let marks := readMarks s₁.rest
  have := length_readMarks s₁.rest
  let ⟨(steps, s₂), h₂⟩ ← readMoreSteps ctx { s₁ with rest := marks.2 }
  return ⟨(ofSteps ((none, first) :: marks.1 ++ steps), s₂), by
    simp only [marks] at h₁ h₂ ⊢; omega⟩
  termination_by (s.rest.length, 3)
  decreasing_by
  · exact Prod.Lex.right _ (by decide)
  · exact Prod.Lex.left _ _ (Nat.lt_of_le_of_lt this h₁)

/-- Reads the elements that follow the first, each with the axis before it and the marks after
it. -/
def readMoreSteps (ctx : ReadContext) (s : ReadState) :
    Except CompileError (NotLonger s (List (Option Axis × Pattern))) :=
  match h : s.rest with
  | [] => .ok ⟨([], s), Nat.le_refl _⟩
  | token :: rest =>
    match token.value.axis? with
    | some axis => do
      let ⟨(step, s₁), h₁⟩ ← readElement ctx { s with rest }
      let marks := readMarks s₁.rest
      have := length_readMarks s₁.rest
      let ⟨(steps, s₂), h₂⟩ ← readMoreSteps ctx { s₁ with rest := marks.2 }
      return ⟨((some axis, step) :: marks.1 ++ steps, s₂), by
        simp only [marks, h, List.length_cons] at h₁ h₂ ⊢; omega⟩
    | none =>
      if token.value.startsElement then do
        let ⟨(step, s₁), h₁⟩ ← readElement ctx s
        let marks := readMarks s₁.rest
        have := length_readMarks s₁.rest
        let ⟨(steps, s₂), h₂⟩ ← readMoreSteps ctx { s₁ with rest := marks.2 }
        return ⟨((some .child, step) :: marks.1 ++ steps, s₂), by
          simp only [marks, h, List.length_cons] at h₁ h₂ ⊢; omega⟩
      else .ok ⟨([], s), Nat.le_refl _⟩
  termination_by (s.rest.length, 3)
  decreasing_by
  · exact Prod.Lex.left _ _ (length_lt_of_eq_cons h)
  · exact Prod.Lex.left _ _ (Nat.lt_of_le_of_lt this (Nat.lt_trans h₁ (length_lt_of_eq_cons h)))
  · exact Prod.Lex.right _ (by decide)
  · exact Prod.Lex.left _ _ (Nat.lt_of_le_of_lt this h₁)

/-- Reads an element. -/
def readElement (ctx : ReadContext) (s : ReadState) : Except CompileError (Shorter s Pattern) :=
  match h : s.rest with
  | ⟨.word name, _⟩ :: ⟨.colon, _⟩ :: rest => do
    let ⟨(body, s₁), h₁⟩ ← readElement ctx { s with rest }
    return ⟨(.capture name body, { s₁ with closed := s₁.closed ++ [name] }), by
      simp only [h, List.length_cons] at h₁ ⊢; omega⟩
  | _ => do
    let ⟨(body, s₁), h₁⟩ ← readPrimary ctx s
    let ⟨(element, s₂), h₂⟩ ← readQuantifier ctx body s₁
    return ⟨(element, s₂), by simp only at h₁ h₂ ⊢; omega⟩
  termination_by (s.rest.length, 2)
  decreasing_by
  · exact Prod.Lex.left _ _ (Nat.lt_of_succ_lt (length_lt_of_eq_cons h))
  · exact Prod.Lex.right _ (by decide)

/-- Reads an element without the quantifier after it. -/
def readPrimary (ctx : ReadContext) (s : ReadState) : Except CompileError (Shorter s Pattern) :=
  match h : s.rest with
  | ⟨.word text, _⟩ :: rest =>
    .ok ⟨(.test (.literal text), { s with rest }), by simp [h]⟩
  | ⟨.quoted text, _⟩ :: rest =>
    .ok ⟨(.test (.literal text), { s with rest }), by simp [h]⟩
  | ⟨.dot, _⟩ :: rest => .ok ⟨(.test .any, { s with rest }), by simp [h]⟩
  | ⟨.predicate name, _⟩ :: rest =>
    .ok ⟨(.test (.predicate name), { s with rest }), by simp [h]⟩
  | ⟨.reference name, position⟩ :: rest =>
    if s.closed.contains name then
      .ok ⟨(.test (.reference name), { s with rest }), by simp [h]⟩
    else .error (.undeclaredCapture name position)
  | ⟨.openParen, _⟩ :: rest => do
    let ⟨(inner, s₁), h₁⟩ ← readBranches ctx { s with rest }
    match h₂ : s₁.rest with
    | ⟨.closeParen, _⟩ :: rest₂ =>
      return ⟨(inner, { s₁ with rest := rest₂ }), by
        simp only [h, h₂, List.length_cons] at h₁ ⊢; omega⟩
    | _ => throw (s₁.unexpected ctx .closeParen)
  | _ => .error (s.unexpected ctx .element)
  termination_by (s.rest.length, 1)
  decreasing_by exact Prod.Lex.left _ _ (length_lt_of_eq_cons h)

end

/-- Reads a whole pattern, up to an arrow or the end of the text. -/
def readPattern (ctx : ReadContext) (tokens : List (Placed Token)) :
    Except CompileError (Pattern × ReadState) :=
  match tokens with
  | ⟨.doubleSlash, _⟩ :: rest => do return (← readBranches ctx { rest }).val
  | ⟨.slash, _⟩ :: rest => do
    let (body, s) := (← readBranches ctx { rest }).val
    return (.sequence [(none, .anchor .root), (none, body)], s)
  | tokens => do return (← readBranches ctx { rest := tokens }).val

end Pattern

namespace TemplateNode

/-! ### Templates -/

mutual

/-- Reads nodes with commas between them. -/
def readList (ctx : ReadContext) (s : ReadState) :
    Except CompileError (Shorter s (List TemplateNode)) := do
  let ⟨(first, s₁), h₁⟩ ← readNode ctx s
  let ⟨(others, s₂), h₂⟩ ← readMore ctx s₁
  return ⟨(first :: others, s₂), by simp only at h₁ h₂ ⊢; omega⟩
  termination_by (s.rest.length, 1)

/-- Reads the nodes that follow the first, each after a comma. -/
def readMore (ctx : ReadContext) (s : ReadState) :
    Except CompileError (NotLonger s (List TemplateNode)) :=
  match h : s.rest with
  | ⟨.comma, _⟩ :: rest => do
    let ⟨(first, s₁), h₁⟩ ← readNode ctx { s with rest }
    let ⟨(others, s₂), h₂⟩ ← readMore ctx s₁
    return ⟨(first :: others, s₂), by simp only [h, List.length_cons] at h₁ h₂ ⊢; omega⟩
  | _ => .ok ⟨([], s), Nat.le_refl _⟩
  termination_by (s.rest.length, 2)
  decreasing_by
  · exact Prod.Lex.left _ _ (length_lt_of_eq_cons h)
  · exact Prod.Lex.left _ _ (Nat.lt_trans h₁ (length_lt_of_eq_cons h))

/-- Reads a node with what lies beneath it. -/
def readNode (ctx : ReadContext) (s : ReadState) : Except CompileError (Shorter s TemplateNode) :=
  match h : s.rest with
  | ⟨.word text, _⟩ :: rest => do
    let ⟨(beneath, s₁), h₁⟩ ← readChildren ctx { s with rest }
    return ⟨(.node (.literal text) beneath, s₁), by
      simp only [h, List.length_cons] at h₁ ⊢; omega⟩
  | ⟨.quoted text, _⟩ :: rest => do
    let ⟨(beneath, s₁), h₁⟩ ← readChildren ctx { s with rest }
    return ⟨(.node (.literal text) beneath, s₁), by
      simp only [h, List.length_cons] at h₁ ⊢; omega⟩
  | ⟨.reference name, position⟩ :: rest =>
    if (rest.head?.map (·.value)) == some .slash then
      .error (.malformed .referenceWithChildren position)
    else
      let head := if name = "0" then .target else .capture name position
      .ok ⟨(.node head [], { s with rest }), by simp [h]⟩
  | _ => .error (s.unexpected ctx .templateNode)
  termination_by (s.rest.length, 0)
  decreasing_by all_goals exact Prod.Lex.left _ _ (length_lt_of_eq_cons h)

/-- Reads the nodes beneath a new node, which follow a slash if there are any. -/
def readChildren (ctx : ReadContext) (s : ReadState) :
    Except CompileError (NotLonger s (List TemplateNode)) :=
  match h : s.rest with
  | ⟨.slash, _⟩ :: ⟨.openParen, _⟩ :: rest => do
    let ⟨(nodes, s₁), h₁⟩ ← readList ctx { s with rest }
    match h₂ : s₁.rest with
    | ⟨.closeParen, _⟩ :: rest₂ =>
      return ⟨(nodes, { s₁ with rest := rest₂ }), by
        simp only [h, h₂, List.length_cons] at h₁ ⊢; omega⟩
    | _ => throw (s₁.unexpected ctx .closeParen)
  | ⟨.slash, _⟩ :: rest => do
    let ⟨(only, s₁), h₁⟩ ← readNode ctx { s with rest }
    return ⟨([only], s₁), by simp only [h, List.length_cons] at h₁ ⊢; omega⟩
  | _ => .ok ⟨([], s), Nat.le_refl _⟩
  termination_by (s.rest.length, 3)
  decreasing_by
  · exact Prod.Lex.left _ _ (Nat.lt_of_succ_lt (length_lt_of_eq_cons h))
  · exact Prod.Lex.left _ _ (length_lt_of_eq_cons h)

end

end TemplateNode

namespace Template

/-- Reads a template from the tokens that are left; no token at all is the empty template. -/
def readFrom (ctx : ReadContext) (s : ReadState) : Except CompileError (Template × ReadState) :=
  if s.rest.isEmpty then .ok (⟨[]⟩, s)
  else do
    let (roots, s) := (← TemplateNode.readList ctx s).val
    return (⟨roots⟩, s)

end Template

end TreeRules
