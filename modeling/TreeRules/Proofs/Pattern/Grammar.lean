/-
The grammar of patterns and templates, and what a derivation means.

    pattern   := ['//' | '/'] branches
    branches  := sequence ('|' sequence)*
    sequence  := element mark* ([axis] element mark*)*
    mark      := '$' | '>'
    axis      := '/' | '//' | ',' | '&'
    element   := word ':' element | primary [quantifier ['?']]
    primary   := word | quoted | '.' | predicate | reference | '(' branches ')'

A derivation is a tree.  Its leaves hold the tokens with the positions where they stand, so nothing
of the text is lost in it, and two derivations of the same tokens differ only if the grammar is
ambiguous.

  * Read from left to right, a derivation is a list of pieces: the tokens, the ends of captured
    elements and the repetitions.  The conditions that the grammar leaves open are about the pieces.
  * What a derivation means is read off the tree: a pattern, and a template if there is an arrow.
-/
import TreeRules.Pattern.Parser

namespace TreeRules

open TreeRules.Text

/-- What `f` makes of a value, in the value's place. -/
def Text.Placed.map {α β : Type} (f : α → β) (placed : Placed α) : Placed β :=
  ⟨f placed.value, placed.position⟩

theorem Text.Placed.map_injective {α β : Type} {f : α → β} (h : Function.Injective f) :
    Function.Injective (Placed.map f) := by
  rintro ⟨a, position⟩ ⟨a', position'⟩ heq
  obtain ⟨hvalue, hposition⟩ := Placed.mk.inj heq
  obtain rfl : a = a' := h hvalue
  obtain rfl : position = position' := hposition
  rfl

namespace Grammar

/-! ### Tokens that come in several kinds -/

/-- A step that uses no node. -/
inductive Mark where
  | leaf
  | parent

/-- The token of the step. -/
def Mark.token : Mark → Token
  | leaf => .dollar
  | parent => .up

/-- The step itself. -/
def Mark.pattern : Mark → Pattern
  | leaf => .anchor .leaf
  | parent => .parent

theorem Mark.token_injective : Function.Injective Mark.token := by
  intro mark mark' h
  cases mark <;> cases mark' <;> first | rfl | exact absurd h (by decide)

@[simp] theorem mark?_token (mark : Mark) : mark.token.mark? = some mark.pattern := by
  cases mark <;> rfl

theorem exists_mark {token : Token} {pattern : Pattern} (h : token.mark? = some pattern) :
    ∃ mark : Mark, mark.token = token ∧ mark.pattern = pattern := by
  unfold Token.mark? at h
  split at h
  · exact ⟨.leaf, rfl, Option.some.inj h⟩
  · exact ⟨.parent, rfl, Option.some.inj h⟩
  · exact absurd h (by simp)

theorem mark_ne_reference (mark : Mark) (name : String) : mark.token ≠ .reference name := by
  cases mark <;> exact Token.noConfusion

/-- The token of an axis. -/
def axisToken : Axis → Token
  | .child => .slash
  | .descendant => .doubleSlash
  | .nextSibling => .comma
  | .anySibling => .ampersand

theorem axisToken_injective : Function.Injective axisToken := by
  intro axis axis' h
  cases axis <;> cases axis' <;> first | rfl | exact absurd h (by decide)

@[simp] theorem axis?_axisToken (axis : Axis) : (axisToken axis).axis? = some axis := by
  cases axis <;> rfl

theorem axisToken_of_axis? {token : Token} {axis : Axis} (h : token.axis? = some axis) :
    axisToken axis = token := by
  unfold Token.axis? at h
  split at h <;> first | (obtain rfl := Option.some.inj h; rfl) | exact absurd h (by simp)

theorem axisToken_ne_reference (axis : Axis) (name : String) :
    axisToken axis ≠ .reference name := by
  cases axis <;> exact Token.noConfusion

/-- How often something is repeated. -/
inductive Quantifier where
  | optional
  | star
  | plus
  | bounds (min : Nat) (max : Option Nat)

namespace Quantifier

/-- The token of the quantifier. -/
def token : Quantifier → Token
  | optional => .question
  | star => .star
  | plus => .plus
  | bounds min max => .braces min max

/-- The least number of times. -/
def min : Quantifier → Nat
  | optional | star => 0
  | plus => 1
  | bounds min _ => min

/-- The greatest number of times, if there is one. -/
def max : Quantifier → Option Nat
  | optional => some 1
  | star | plus => none
  | bounds _ max => max

end Quantifier

theorem Quantifier.token_injective : Function.Injective Quantifier.token := by
  intro quantifier quantifier' h
  cases quantifier <;> cases quantifier' <;> simp_all [token]

@[simp] theorem quantifier?_token (quantifier : Quantifier) :
    quantifier.token.quantifier? = some (quantifier.min, quantifier.max) := by
  cases quantifier <;> rfl

theorem exists_quantifier {token : Token} {min : Nat} {max : Option Nat}
    (h : token.quantifier? = some (min, max)) :
    ∃ quantifier : Quantifier,
      quantifier.token = token ∧ quantifier.min = min ∧ quantifier.max = max := by
  unfold Token.quantifier? at h
  split at h
  · cases h
    exact ⟨.optional, rfl, rfl, rfl⟩
  · cases h
    exact ⟨.star, rfl, rfl, rfl⟩
  · cases h
    exact ⟨.plus, rfl, rfl, rfl⟩
  · cases h
    exact ⟨.bounds _ _, rfl, rfl, rfl⟩
  · exact absurd h (by simp)

theorem quantifier_ne_reference (quantifier : Quantifier) (name : String) :
    quantifier.token ≠ .reference name := by
  cases quantifier <;> exact Token.noConfusion

/-- A quantifier, and perhaps a question mark after it, which makes the repetition lazy. -/
structure Times where
  quantifier : Placed Quantifier
  lazily : Option Nat

/-! ### Derivations of patterns -/

mutual

/-- A captured element, or a primary with what says how often it is repeated. -/
inductive Element where
  /-- A name, a colon, and the element that is captured under the name. -/
  | capture (name : Placed String) (colon : Nat) (body : Element)
  | plain (body : Primary) (times : Option Times)

/-- A test of one node, or branches between parentheses. -/
inductive Primary where
  | word (text : Placed String)
  | quoted (text : Placed String)
  | any (position : Nat)
  | predicate (name : Placed String)
  | reference (name : Placed String)
  | group (opening : Nat) (inner : Branches) (closing : Nat)

/-- Sequences with bars between them. -/
inductive Branches where
  | mk (first : Sequence) (others : MoreBranches)

/-- The sequences after the first, each after a bar. -/
inductive MoreBranches where
  | nil
  | cons (bar : Nat) (branch : Sequence) (others : MoreBranches)

/-- Elements with axes between them and marks after them. -/
inductive Sequence where
  | mk (first : Element) (marks : List (Placed Mark)) (steps : MoreSteps)

/-- The elements after the first, each with its axis and its marks. -/
inductive MoreSteps where
  | nil
  | cons (axis : Option (Placed Axis)) (step : Element) (marks : List (Placed Mark))
      (steps : MoreSteps)

end

/-! ### The pattern that a derivation means -/

/-- The step that a mark is. -/
def markStep (mark : Placed Mark) : Option Axis × Pattern := (none, mark.value.pattern)

/-- The axis before an element; elements that stand side by side are joined by the child axis. -/
def axisOf : Option (Placed Axis) → Axis
  | some axis => axis.value
  | none => .child

/-- The body, repeated as often as is said. -/
def timesPattern (body : Pattern) : Option Times → Pattern
  | none => body
  | some ⟨quantifier, lazily⟩ =>
    .repetition body quantifier.value.min quantifier.value.max lazily.isNone

mutual

def Element.pattern : Element → Pattern
  | .capture name _ body => .capture name.value body.pattern
  | .plain body times => timesPattern body.pattern times

def Primary.pattern : Primary → Pattern
  | .word text | .quoted text => .test (.literal text.value)
  | .any _ => .test .any
  | .predicate name => .test (.predicate name.value)
  | .reference name => .test (.reference name.value)
  | .group _ inner _ => inner.pattern

def Branches.pattern : Branches → Pattern
  | .mk first others => Pattern.ofBranches (first.pattern :: others.patterns)

def MoreBranches.patterns : MoreBranches → List Pattern
  | .nil => []
  | .cons _ branch others => branch.pattern :: others.patterns

def Sequence.pattern : Sequence → Pattern
  | .mk first marks steps =>
    Pattern.ofSteps ((none, first.pattern) :: marks.map markStep ++ steps.steps)

def MoreSteps.steps : MoreSteps → List (Option Axis × Pattern)
  | .nil => []
  | .cons axis step marks steps =>
    (some (axisOf axis), step.pattern) :: marks.map markStep ++ steps.steps

end

/-! ### A derivation from left to right -/

/-- What stands in a derivation of a pattern. -/
inductive Piece where
  | token (token : Placed Token)
  /-- The element of a capture of that name ends here. -/
  | ended (name : String)
  /-- What ends here is repeated, at least `min` times and at most `max` times. -/
  | repeated (body : Pattern) (min : Nat) (max : Option Nat)

namespace Piece

/-- The token that the piece is. -/
def token? : Piece → Option (Placed Token)
  | .token t => some t
  | _ => none

/-- The name of the capture whose element ends with the piece. -/
def ended? : Piece → Option String
  | .ended name => some name
  | _ => none

end Piece

/-- The tokens among some pieces. -/
def tokensOf (pieces : List Piece) : List (Placed Token) := pieces.filterMap Piece.token?

/-- The names of the captures whose elements end among some pieces. -/
def endedIn (pieces : List Piece) : List String := pieces.filterMap Piece.ended?

/-- Each reference among the pieces names a capture whose element ends before it, or one that is in
`closed`. -/
def Backward (closed : List String) (pieces : List Piece) : Prop :=
  ∀ before name position after, pieces = before ++ .token ⟨.reference name, position⟩ :: after →
    name ∈ closed ++ endedIn before

/-- The tokens of some marks. -/
def markTokens (marks : List (Placed Mark)) : List (Placed Token) := marks.map (·.map Mark.token)

/-- The token of an axis, if there is one. -/
def axisTokens (axis : Option (Placed Axis)) : List (Placed Token) :=
  axis.toList.map (·.map axisToken)

/-- The question mark that makes a repetition lazy, if it does stand there. -/
def lazyTokens (lazily : Option Nat) : List (Placed Token) := lazily.toList.map (⟨.question, ·⟩)

/-- What says how often `body` is repeated. -/
def timesPieces (body : Pattern) : Option Times → List Piece
  | none => []
  | some ⟨quantifier, lazily⟩ =>
    .token (quantifier.map Quantifier.token) ::
      .repeated body quantifier.value.min quantifier.value.max :: (lazyTokens lazily).map .token

mutual

def Element.pieces : Element → List Piece
  | .capture name colon body =>
    .token (name.map .word) :: .token ⟨.colon, colon⟩ :: body.pieces ++
      [.ended name.value]
  | .plain body times => body.pieces ++ timesPieces body.pattern times

def Primary.pieces : Primary → List Piece
  | .word text => [.token (text.map .word)]
  | .quoted text => [.token (text.map .quoted)]
  | .any position => [.token ⟨.dot, position⟩]
  | .predicate name => [.token (name.map .predicate)]
  | .reference name => [.token (name.map .reference)]
  | .group opening inner closing =>
    .token ⟨.openParen, opening⟩ :: inner.pieces ++ [.token ⟨.closeParen, closing⟩]

def Branches.pieces : Branches → List Piece
  | .mk first others => first.pieces ++ others.pieces

def MoreBranches.pieces : MoreBranches → List Piece
  | .nil => []
  | .cons bar branch others => .token ⟨.bar, bar⟩ :: branch.pieces ++ others.pieces

def Sequence.pieces : Sequence → List Piece
  | .mk first marks steps => first.pieces ++ (markTokens marks).map .token ++ steps.pieces

def MoreSteps.pieces : MoreSteps → List Piece
  | .nil => []
  | .cons axis step marks steps =>
    (axisTokens axis).map .token ++ step.pieces ++ (markTokens marks).map .token ++ steps.pieces

end

/-- The body of a repetition and its bounds are allowed. -/
structure Allowed (maxBound : Nat) (body : Pattern) (min : Nat) (max : Option Nat) : Prop where
  min_le_max : ∀ bound, max = some bound → min ≤ bound
  min_le : min ≤ maxBound
  max_le : ∀ bound, max = some bound → bound ≤ maxBound
  /-- Nothing that may consume no node is repeated without bound. -/
  consumes : max = none → body.canBeEmpty = false
  short : ∀ greedy, (Pattern.repetition body min max greedy).codeLength ≤ maxCodeLength

end Grammar

end TreeRules
