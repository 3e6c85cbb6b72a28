/-
Where tokens stand does not matter to what is read from them.

A derivation holds its tokens with their positions, and the grammar asks nothing of these.  So the
same derivation with every position changed is one of the tokens at the other positions: it means
the same pattern, and the same template but for the positions that its references remember.  As what
is read from tokens is what their derivation means, tokens are accepted at one place exactly if they
are at another.
-/
import TreeRules.Proofs.Pattern.Accepts
import TreeRules.Proofs.Pattern.Append
import TreeRules.Proofs.Template.Written

namespace TreeRules

open TreeRules.Text

namespace Grammar

variable {place : Nat → Nat}

/-! ### Derivations at other positions -/

/-- What says how often something is repeated, at another place. -/
def Times.relocate (place : Nat → Nat) (times : Times) : Times :=
  ⟨times.quantifier.relocate place, times.lazily.map place⟩

mutual

def Element.relocate (place : Nat → Nat) : Element → Element
  | .capture name colon body =>
    .capture (name.relocate place) (place colon) (body.relocate place)
  | .plain body times => .plain (body.relocate place) (times.map (·.relocate place))

def Primary.relocate (place : Nat → Nat) : Primary → Primary
  | .word text => .word (text.relocate place)
  | .quoted text => .quoted (text.relocate place)
  | .any position => .any (place position)
  | .predicate name => .predicate (name.relocate place)
  | .reference name => .reference (name.relocate place)
  | .group opening inner closing =>
    .group (place opening) (inner.relocate place) (place closing)

def Branches.relocate (place : Nat → Nat) : Branches → Branches
  | .mk first others => .mk (first.relocate place) (others.relocate place)

def MoreBranches.relocate (place : Nat → Nat) : MoreBranches → MoreBranches
  | .nil => .nil
  | .cons bar branch others =>
    .cons (place bar) (branch.relocate place) (others.relocate place)

def Sequence.relocate (place : Nat → Nat) : Sequence → Sequence
  | .mk first marks steps =>
    .mk (first.relocate place) (marks.map (·.relocate place)) (steps.relocate place)

def MoreSteps.relocate (place : Nat → Nat) : MoreSteps → MoreSteps
  | .nil => .nil
  | .cons axis step marks steps =>
    .cons (axis.map (·.relocate place)) (step.relocate place) (marks.map (·.relocate place))
      (steps.relocate place)

end

mutual

def Node.relocate (place : Nat → Nat) : Node → Node
  | .literal text beneath => .literal (text.relocate place) (beneath.relocate place)
  | .reference name => .reference (name.relocate place)

def Beneath.relocate (place : Nat → Nat) : Beneath → Beneath
  | .nothing => .nothing
  | .one slash only => .one (place slash) (only.relocate place)
  | .several slash opening nodes closing =>
    .several (place slash) (place opening) (nodes.relocate place) (place closing)

def Nodes.relocate (place : Nat → Nat) : Nodes → Nodes
  | .mk first others => .mk (first.relocate place) (others.relocate place)

def MoreNodes.relocate (place : Nat → Nat) : MoreNodes → MoreNodes
  | .nil => .nil
  | .cons comma node others =>
    .cons (place comma) (node.relocate place) (others.relocate place)

end

/-- A piece at another place. -/
def Piece.relocate (place : Nat → Nat) : Piece → Piece
  | .token t => .token (t.relocate place)
  | piece => piece

/-! ### What they mean -/

theorem timesPattern_relocate (body : Pattern) (times : Option Times) :
    timesPattern body (times.map (·.relocate place)) = timesPattern body times := by
  cases times with
  | none => rfl
  | some times =>
      obtain ⟨quantifier, lazily⟩ := times
      cases lazily <;> rfl

theorem markStep_relocate (marks : List (Placed Mark)) :
    (marks.map (·.relocate place)).map markStep = marks.map markStep := by
  rw [List.map_map]
  rfl

theorem axisOf_relocate (axis : Option (Placed Axis)) :
    axisOf (axis.map (·.relocate place)) = axisOf axis := by
  cases axis <;> rfl

mutual

theorem Element.pattern_relocate : ∀ element : Element,
    (element.relocate place).pattern = element.pattern
  | .capture name colon body => by
      rw [Element.relocate, Element.pattern, Element.pattern, body.pattern_relocate]
      rfl
  | .plain body times => by
      rw [Element.relocate, Element.pattern, Element.pattern, body.pattern_relocate,
        timesPattern_relocate]

theorem Primary.pattern_relocate : ∀ primary : Primary,
    (primary.relocate place).pattern = primary.pattern
  | .word text => by rw [Primary.relocate, Primary.pattern, Primary.pattern]; rfl
  | .quoted text => by rw [Primary.relocate, Primary.pattern, Primary.pattern]; rfl
  | .any position => by rw [Primary.relocate, Primary.pattern, Primary.pattern]
  | .predicate name => by rw [Primary.relocate, Primary.pattern, Primary.pattern]; rfl
  | .reference name => by rw [Primary.relocate, Primary.pattern, Primary.pattern]; rfl
  | .group opening inner closing => by
      rw [Primary.relocate, Primary.pattern, Primary.pattern, inner.pattern_relocate]

theorem Branches.pattern_relocate : ∀ branches : Branches,
    (branches.relocate place).pattern = branches.pattern
  | .mk first others => by
      rw [Branches.relocate, Branches.pattern, Branches.pattern, first.pattern_relocate,
        others.patterns_relocate]

theorem MoreBranches.patterns_relocate : ∀ others : MoreBranches,
    (others.relocate place).patterns = others.patterns
  | .nil => rfl
  | .cons bar branch others => by
      rw [MoreBranches.relocate, MoreBranches.patterns, MoreBranches.patterns,
        branch.pattern_relocate, others.patterns_relocate]

theorem Sequence.pattern_relocate : ∀ sequence : Sequence,
    (sequence.relocate place).pattern = sequence.pattern
  | .mk first marks steps => by
      rw [Sequence.relocate, Sequence.pattern, Sequence.pattern, first.pattern_relocate,
        markStep_relocate, steps.steps_relocate]

theorem MoreSteps.steps_relocate : ∀ steps : MoreSteps,
    (steps.relocate place).steps = steps.steps
  | .nil => rfl
  | .cons axis step marks steps => by
      rw [MoreSteps.relocate, MoreSteps.steps, MoreSteps.steps, axisOf_relocate,
        step.pattern_relocate, markStep_relocate, steps.steps_relocate]

end

theorem unplaced_referenceHead (name : Placed String) :
    (referenceHead (name.relocate place)).unplaced = (referenceHead name).unplaced := by
  unfold referenceHead
  show (if name.value = "0" then TemplateHead.target
    else .capture name.value (place name.position)).unplaced = _
  split <;> rfl

mutual

theorem Node.template_relocate : ∀ node : Node,
    (node.relocate place).template.mapHeads TemplateHead.unplaced =
      node.template.mapHeads TemplateHead.unplaced
  | .literal text beneath => by
      rw [Node.relocate, Node.template, Node.template, TemplateNode.mapHeads, TemplateNode.mapHeads,
        beneath.template_relocate]
      rfl
  | .reference name => by
      rw [Node.relocate, Node.template, Node.template, TemplateNode.mapHeads, TemplateNode.mapHeads,
        unplaced_referenceHead]

theorem Beneath.template_relocate : ∀ beneath : Beneath,
    TemplateNode.mapHeadsOf TemplateHead.unplaced (beneath.relocate place).template =
      TemplateNode.mapHeadsOf TemplateHead.unplaced beneath.template
  | .nothing => rfl
  | .one slash only => by
      rw [Beneath.relocate, Beneath.template, Beneath.template, TemplateNode.mapHeadsOf,
        TemplateNode.mapHeadsOf, only.template_relocate]
      rfl
  | .several slash opening nodes closing => by
      rw [Beneath.relocate, Beneath.template, Beneath.template, nodes.template_relocate]

theorem Nodes.template_relocate : ∀ nodes : Nodes,
    TemplateNode.mapHeadsOf TemplateHead.unplaced (nodes.relocate place).template =
      TemplateNode.mapHeadsOf TemplateHead.unplaced nodes.template
  | .mk first others => by
      rw [Nodes.relocate, Nodes.template, Nodes.template, TemplateNode.mapHeadsOf,
        TemplateNode.mapHeadsOf, first.template_relocate, others.template_relocate]

theorem MoreNodes.template_relocate : ∀ others : MoreNodes,
    TemplateNode.mapHeadsOf TemplateHead.unplaced (others.relocate place).template =
      TemplateNode.mapHeadsOf TemplateHead.unplaced others.template
  | .nil => rfl
  | .cons comma node others => by
      rw [MoreNodes.relocate, MoreNodes.template, MoreNodes.template, TemplateNode.mapHeadsOf,
        TemplateNode.mapHeadsOf, node.template_relocate, others.template_relocate]

end

/-! ### Their pieces and tokens -/

theorem markTokens_relocate (marks : List (Placed Mark)) :
    (markTokens (marks.map (·.relocate place))).map Piece.token =
      ((markTokens marks).map Piece.token).map (·.relocate place) := by
  simp [markTokens, Function.comp_def, Piece.relocate, Placed.relocate, Placed.map]

theorem axisTokens_relocate (axis : Option (Placed Axis)) :
    (axisTokens (axis.map (·.relocate place))).map Piece.token =
      ((axisTokens axis).map Piece.token).map (·.relocate place) := by
  cases axis <;> rfl

theorem timesPieces_relocate (body : Pattern) (times : Option Times) :
    timesPieces body (times.map (·.relocate place)) =
      (timesPieces body times).map (·.relocate place) := by
  cases times with
  | none => rfl
  | some times =>
      obtain ⟨quantifier, lazily⟩ := times
      cases lazily <;> rfl

mutual

theorem Element.pieces_relocate : ∀ element : Element,
    (element.relocate place).pieces = element.pieces.map (·.relocate place)
  | .capture name colon body => by
      rw [Element.relocate, Element.pieces, Element.pieces, body.pieces_relocate, List.map_append]
      rfl
  | .plain body times => by
      rw [Element.relocate, Element.pieces, Element.pieces, body.pieces_relocate,
        body.pattern_relocate, timesPieces_relocate, List.map_append]

theorem Primary.pieces_relocate : ∀ primary : Primary,
    (primary.relocate place).pieces = primary.pieces.map (·.relocate place)
  | .word text => by rw [Primary.relocate, Primary.pieces, Primary.pieces]; rfl
  | .quoted text => by rw [Primary.relocate, Primary.pieces, Primary.pieces]; rfl
  | .any position => by rw [Primary.relocate, Primary.pieces, Primary.pieces]; rfl
  | .predicate name => by rw [Primary.relocate, Primary.pieces, Primary.pieces]; rfl
  | .reference name => by rw [Primary.relocate, Primary.pieces, Primary.pieces]; rfl
  | .group opening inner closing => by
      rw [Primary.relocate, Primary.pieces, Primary.pieces, inner.pieces_relocate, List.map_append]
      rfl

theorem Branches.pieces_relocate : ∀ branches : Branches,
    (branches.relocate place).pieces = branches.pieces.map (·.relocate place)
  | .mk first others => by
      rw [Branches.relocate, Branches.pieces, Branches.pieces, first.pieces_relocate,
        others.pieces_relocate, List.map_append]

theorem MoreBranches.pieces_relocate : ∀ others : MoreBranches,
    (others.relocate place).pieces = others.pieces.map (·.relocate place)
  | .nil => rfl
  | .cons bar branch others => by
      rw [MoreBranches.relocate, MoreBranches.pieces, MoreBranches.pieces, branch.pieces_relocate,
        others.pieces_relocate, List.map_append]
      rfl

theorem Sequence.pieces_relocate : ∀ sequence : Sequence,
    (sequence.relocate place).pieces = sequence.pieces.map (·.relocate place)
  | .mk first marks steps => by
      rw [Sequence.relocate, Sequence.pieces, Sequence.pieces, first.pieces_relocate,
        markTokens_relocate, steps.pieces_relocate, List.map_append, List.map_append]

theorem MoreSteps.pieces_relocate : ∀ steps : MoreSteps,
    (steps.relocate place).pieces = steps.pieces.map (·.relocate place)
  | .nil => rfl
  | .cons axis step marks steps => by
      rw [MoreSteps.relocate, MoreSteps.pieces, MoreSteps.pieces, axisTokens_relocate,
        step.pieces_relocate, markTokens_relocate, steps.pieces_relocate, List.map_append,
        List.map_append, List.map_append]

end

mutual

theorem Node.tokens_relocate : ∀ node : Node,
    (node.relocate place).tokens = node.tokens.map (·.relocate place)
  | .literal text beneath => by
      rw [Node.relocate, Node.tokens, Node.tokens, beneath.tokens_relocate]
      rfl
  | .reference name => by rw [Node.relocate, Node.tokens, Node.tokens]; rfl

theorem Beneath.tokens_relocate : ∀ beneath : Beneath,
    (beneath.relocate place).tokens = beneath.tokens.map (·.relocate place)
  | .nothing => rfl
  | .one slash only => by
      rw [Beneath.relocate, Beneath.tokens, Beneath.tokens, only.tokens_relocate]
      rfl
  | .several slash opening nodes closing => by
      rw [Beneath.relocate, Beneath.tokens, Beneath.tokens, nodes.tokens_relocate, List.map_append]
      rfl

theorem Nodes.tokens_relocate : ∀ nodes : Nodes,
    (nodes.relocate place).tokens = nodes.tokens.map (·.relocate place)
  | .mk first others => by
      rw [Nodes.relocate, Nodes.tokens, Nodes.tokens, first.tokens_relocate,
        others.tokens_relocate, List.map_append]

theorem MoreNodes.tokens_relocate : ∀ others : MoreNodes,
    (others.relocate place).tokens = others.tokens.map (·.relocate place)
  | .nil => rfl
  | .cons comma node others => by
      rw [MoreNodes.relocate, MoreNodes.tokens, MoreNodes.tokens, node.tokens_relocate,
        others.tokens_relocate, List.map_append]
      rfl

end

/-! ### Whole derivations -/

/-- The derivation of the same tokens at other positions. -/
def Derivation.relocate (place : Nat → Nat) (d : Derivation) : Derivation where
  lead := d.lead.map (·.relocate place)
  branches := d.branches.relocate place
  arrow := d.arrow.map fun arrow => ⟨place arrow.position, arrow.nodes.map (·.relocate place)⟩

theorem tokensOf_relocate (pieces : List Piece) :
    tokensOf (pieces.map (·.relocate place)) = (tokensOf pieces).map (·.relocate place) := by
  induction pieces with
  | nil => rfl
  | cons piece pieces ih =>
      cases piece with
      | token t => exact congrArg (t.relocate place :: ·) ih
      | ended name => exact ih
      | repeated body min max => exact ih

theorem endedIn_relocate (pieces : List Piece) :
    endedIn (pieces.map (·.relocate place)) = endedIn pieces := by
  induction pieces with
  | nil => rfl
  | cons piece pieces ih =>
      cases piece with
      | token t => exact ih
      | ended name => exact congrArg (name :: ·) ih
      | repeated body min max => exact ih

theorem nodeTokens_relocate (position : Nat) (nodes : Option Nodes) :
    Arrow.nodeTokens ⟨place position, nodes.map (·.relocate place)⟩ =
      (Arrow.nodeTokens ⟨position, nodes⟩).map (·.relocate place) := by
  cases nodes with
  | none => rfl
  | some nodes => exact nodes.tokens_relocate

theorem Backward.relocate {closed : List String} {pieces : List Piece}
    (h : Backward closed pieces) : Backward closed (pieces.map (·.relocate place)) := by
  intro before name position after hsplit
  obtain ⟨before', rest, rfl, rfl, hrest⟩ := List.map_eq_append_iff.mp hsplit
  obtain ⟨piece, after', rfl, hpiece, -⟩ := List.map_eq_cons_iff.mp hrest
  rw [endedIn_relocate]
  cases piece with
  | token t =>
      obtain ⟨hvalue, -⟩ := Placed.mk.inj (Piece.token.inj hpiece)
      obtain ⟨value, position'⟩ := t
      obtain rfl : value = .reference name := hvalue
      exact h before' name position' after' rfl
  | ended name => cases hpiece
  | repeated body min max => cases hpiece

namespace Derivation

theorem tokens_relocate (d : Derivation) :
    (d.relocate place).tokens = d.tokens.map (·.relocate place) := by
  obtain ⟨lead, branches, arrow⟩ := d
  have hlead : leadTokens (lead.map (·.relocate place)) =
      (leadTokens lead).map (·.relocate place) := by
    cases lead <;> rfl
  have harrow : arrowTokens (arrow.map fun arrow =>
      ⟨place arrow.position, arrow.nodes.map (·.relocate place)⟩) =
        (arrowTokens arrow).map (·.relocate place) := by
    cases arrow with
    | none => rfl
    | some arrow => exact congrArg (_ :: ·) (nodeTokens_relocate arrow.position arrow.nodes)
  rw [tokens, tokens, List.map_append, List.map_append, ← tokensOf_relocate,
    ← branches.pieces_relocate, ← hlead, ← harrow]
  rfl

theorem pattern_relocate (d : Derivation) : (d.relocate place).pattern = d.pattern := by
  obtain ⟨lead, branches, arrow⟩ := d
  rw [pattern, pattern]
  show leadPattern (lead.map (·.relocate place)) (branches.relocate place).pattern = _
  rw [branches.pattern_relocate]
  rcases lead with _ | ⟨_ | _, position⟩ <;> rfl

theorem template_relocate (d : Derivation) :
    (d.relocate place).template.map Template.unplaced = d.template.map Template.unplaced := by
  obtain ⟨lead, branches, arrow⟩ := d
  cases arrow with
  | none => rfl
  | some arrow =>
      obtain ⟨position, nodes⟩ := arrow
      cases nodes with
      | none => rfl
      | some nodes =>
          exact congrArg (fun roots => some (Template.mk roots)) nodes.template_relocate

/-- The conditions on a derivation do not mention positions. -/
theorem Admissible.relocate {maxBound : Nat} {d : Derivation} (h : d.Admissible maxBound) :
    (d.relocate place).Admissible maxBound where
  allowed := by
    intro body min max hmem
    obtain ⟨lead, branches, arrow⟩ := d
    rw [show (Derivation.relocate place ⟨lead, branches, arrow⟩).branches.pieces =
      branches.pieces.map (·.relocate place) from branches.pieces_relocate] at hmem
    obtain ⟨piece, hpiece, heq⟩ := List.mem_map.mp hmem
    cases piece with
    | token t => cases heq
    | ended name => cases heq
    | repeated body min max =>
        obtain ⟨rfl, rfl, rfl⟩ := Piece.repeated.inj heq
        exact h.allowed _ _ _ hpiece
  backward := by
    have hbackward : Backward [] (d.branches.pieces.map (·.relocate place)) := h.backward.relocate
    rwa [← d.branches.pieces_relocate] at hbackward
  declared := by
    intro arrow' name position harrow' hmem hname
    obtain ⟨arrow, harrow, rfl⟩ := Option.map_eq_some_iff.mp harrow'
    rw [nodeTokens_relocate] at hmem
    obtain ⟨⟨value, position'⟩, ht, heq⟩ := List.mem_map.mp hmem
    obtain ⟨rfl, -⟩ := Placed.mk.inj heq
    show name ∈ endedIn (d.branches.relocate place).pieces
    rw [d.branches.pieces_relocate, endedIn_relocate]
    exact h.declared arrow name position' harrow ht hname

end Derivation

end Grammar

namespace CompiledPattern

open Grammar

variable {ctx ctx' : ReadContext} {tokens : List (Placed Token)}

/-- What is read, without the positions that references remember. -/
def unplacedAnswer (answer : Pattern × Option Template) : Pattern × Option Template :=
  (answer.1, answer.2.map Template.unplaced)

/-- What is accepted at some positions is accepted at others, and means the same there. -/
theorem readTokens_relocate (place : Nat → Nat) {answer : Pattern × Option Template}
    (h : readTokens ctx tokens = .ok answer) (hctx : ctx'.maxBound = ctx.maxBound) :
    ∃ answer', readTokens ctx' (tokens.map (·.relocate place)) = .ok answer' ∧
      unplacedAnswer answer' = unplacedAnswer answer := by
  obtain ⟨d, rfl, hadmissible, hpattern, htemplate⟩ := exists_derivation h
  have hread : readTokens ctx' (d.relocate place).tokens = _ :=
    readTokens_of_admissible (hctx ▸ hadmissible.relocate)
  rw [d.tokens_relocate] at hread
  refine ⟨_, hread, ?_⟩
  unfold unplacedAnswer
  rw [d.pattern_relocate, d.template_relocate, hpattern, htemplate]

/-- **Where the tokens of a text stand does not matter**, as long as no two positions are made
one. -/
theorem readTokens_relocate_eq {place back : Nat → Nat}
    (hback : ∀ token ∈ tokens, back (place token.position) = token.position)
    (hctx : ctx'.maxBound = ctx.maxBound) :
    (readTokens ctx' (tokens.map (·.relocate place))).toOption.map unplacedAnswer =
      (readTokens ctx tokens).toOption.map unplacedAnswer := by
  have hthere : (tokens.map (·.relocate place)).map (·.relocate back) = tokens := by
    rw [List.map_map]
    refine (List.map_congr_left fun token hmem => ?_).trans (List.map_id tokens)
    show (⟨token.value, back (place token.position)⟩ : Placed Token) = token
    rw [hback token hmem]
  cases h : readTokens ctx tokens with
  | ok answer =>
      obtain ⟨answer', hread, hsame⟩ := readTokens_relocate place h hctx
      rw [hread]
      exact congrArg some hsame
  | error e =>
      cases h' : readTokens ctx' (tokens.map (·.relocate place)) with
      | error e' => rfl
      | ok answer' =>
          obtain ⟨answer, hread, -⟩ := readTokens_relocate back h' hctx.symm
          rw [hthere, h] at hread
          cases hread

end CompiledPattern

end TreeRules
