/-
No tokens have two derivations.

What comes after a part of a derivation tells where the part ends: no element is followed by a
quantifier or a colon, and no sequence by anything that could go on with it.  Two derivations of
tokens that start alike, and end where such a part may end, are therefore the same and end at the
same place.
-/
import TreeRules.Proofs.Pattern.Pieces

namespace TreeRules

open TreeRules.Text

namespace Grammar

/-! ### What may come next -/

/-- The next token, if there is one, is such a token. -/
def NextIs (P : Token → Prop) (rest : List (Placed Token)) : Prop :=
  ∀ token ∈ rest.head?, P token.value

theorem nextIs_nil (P : Token → Prop) : NextIs P [] := by
  intro token h
  exact absurd h (by simp)

theorem nextIs_cons {P : Token → Prop} {token : Placed Token} {rest : List (Placed Token)} :
    NextIs P (token :: rest) ↔ P token.value := by
  simp [NextIs]

theorem NextIs.mono {P Q : Token → Prop} {rest : List (Placed Token)} (h : NextIs P rest)
    (hPQ : ∀ token, P token → Q token) : NextIs Q rest :=
  fun token htoken => hPQ _ (h token htoken)

/-- What may come after an element. -/
def EndsElement (token : Token) : Prop := token.quantifier? = none ∧ token ≠ .colon

/-- What may come after an element and its marks. -/
def EndsStep (token : Token) : Prop := EndsElement token ∧ token.mark? = none

/-- What may come after a sequence. -/
def EndsSequence (token : Token) : Prop := token = .bar ∨ token = .closeParen ∨ token = .arrow

/-- What may come after branches. -/
def EndsBranches (token : Token) : Prop := token = .closeParen ∨ token = .arrow

theorem EndsSequence.endsStep {token : Token} (h : EndsSequence token) : EndsStep token := by
  rcases h with rfl | rfl | rfl <;> exact ⟨⟨rfl, Token.noConfusion⟩, rfl⟩

theorem EndsSequence.axis?_eq {token : Token} (h : EndsSequence token) : token.axis? = none := by
  rcases h with rfl | rfl | rfl <;> rfl

theorem EndsSequence.startsElement_eq {token : Token} (h : EndsSequence token) :
    token.startsElement = false := by
  rcases h with rfl | rfl | rfl <;> rfl

theorem EndsBranches.endsSequence {token : Token} (h : EndsBranches token) :
    EndsSequence token := .inr h

theorem not_endsBranches_bar : ¬ EndsBranches .bar := by
  rintro (h | h) <;> exact Token.noConfusion h

theorem endsStep_of_startsElement {token : Token} (h : token.startsElement = true) :
    EndsStep token := by
  cases token <;> first | exact absurd h Bool.false_ne_true | exact ⟨⟨rfl, Token.noConfusion⟩, rfl⟩

theorem axis?_of_startsElement {token : Token} (h : token.startsElement = true) :
    token.axis? = none := by
  cases token <;> first | exact absurd h Bool.false_ne_true | rfl

theorem not_startsElement_axisToken (axis : Axis) :
    ¬ (axisToken axis).startsElement = true := by
  cases axis <;> exact Bool.false_ne_true

theorem endsStep_axisToken (axis : Axis) : EndsStep (axisToken axis) := by
  cases axis <;> exact ⟨⟨rfl, Token.noConfusion⟩, rfl⟩

theorem not_endsStep_mark (mark : Mark) : ¬ EndsStep mark.token := by
  rintro ⟨-, h⟩
  rw [mark?_token] at h
  exact absurd h (by simp)

theorem endsElement_mark (mark : Mark) : EndsElement mark.token := by
  cases mark <;> exact ⟨rfl, Token.noConfusion⟩

/-! ### The tokens of the parts -/

theorem exists_startsElement_primary (primary : Primary) :
    ∃ token rest, tokensOf primary.pieces = token :: rest ∧ token.value.startsElement = true := by
  cases primary with
  | word | quoted | any | predicate | reference => exact ⟨_, _, rfl, rfl⟩
  | group opening inner closing =>
      rw [Primary.pieces]
      exact ⟨_, _, rfl, rfl⟩

theorem exists_startsElement (element : Element) :
    ∃ token rest, tokensOf element.pieces = token :: rest ∧ token.value.startsElement = true := by
  cases element with
  | capture name colon body =>
      rw [Element.pieces]
      exact ⟨_, _, rfl, rfl⟩
  | plain body times =>
      obtain ⟨token, rest, htokens, hstarts⟩ := exists_startsElement_primary body
      rw [Element.pieces, tokensOf_append, htokens]
      exact ⟨token, _, rfl, hstarts⟩

/-- A step starts with an axis or with an element. -/
theorem exists_startsStep (axis : Option (Placed Axis)) (step : Element)
    (marks : List (Placed Mark)) (steps : MoreSteps) :
    ∃ token rest, tokensOf (MoreSteps.cons axis step marks steps).pieces = token :: rest ∧
      EndsStep token.value ∧ ¬ EndsSequence token.value := by
  rw [MoreSteps.pieces]
  cases axis with
  | none =>
      obtain ⟨token, rest, htokens, hstarts⟩ := exists_startsElement step
      simp only [axisTokens, Option.toList_none, List.map_nil, List.nil_append, tokensOf_append,
        htokens]
      refine ⟨token, _, rfl, endsStep_of_startsElement hstarts, fun h => ?_⟩
      rw [h.startsElement_eq] at hstarts
      exact Bool.false_ne_true hstarts
  | some axis =>
      refine ⟨axis.map axisToken, _, rfl, endsStep_axisToken axis.value, fun h => ?_⟩
      have haxis : (axisToken axis.value).axis? = none := h.axis?_eq
      rw [axis?_axisToken] at haxis
      exact absurd haxis (by simp)

/-! ### What comes after a part that ends -/

variable {rest rest' : List (Placed Token)}

theorem nextIs_element (element : Element) :
    NextIs (·.startsElement = true) (tokensOf element.pieces ++ rest) := by
  obtain ⟨token, tail, htokens, hstarts⟩ := exists_startsElement element
  rw [htokens]
  exact nextIs_cons.mpr hstarts

theorem nextIs_steps (steps : MoreSteps) (h : NextIs EndsSequence rest) :
    NextIs EndsStep (tokensOf steps.pieces ++ rest) := by
  cases steps with
  | nil => exact h.mono fun _ => EndsSequence.endsStep
  | cons axis step marks steps =>
      obtain ⟨token, tail, htokens, hends, -⟩ := exists_startsStep axis step marks steps
      rw [htokens]
      exact nextIs_cons.mpr hends

theorem nextIs_marks (marks : List (Placed Mark)) (h : NextIs EndsStep rest) :
    NextIs EndsElement (markTokens marks ++ rest) := by
  cases marks with
  | nil => exact h.mono fun _ h => h.1
  | cons mark marks => exact nextIs_cons.mpr (endsElement_mark mark.value)

theorem nextIs_branches (others : MoreBranches) (h : NextIs EndsBranches rest) :
    NextIs EndsSequence (tokensOf others.pieces ++ rest) := by
  cases others with
  | nil => exact h.mono fun _ => EndsBranches.endsSequence
  | cons bar branch others =>
      rw [MoreBranches.pieces]
      exact nextIs_cons.mpr (.inl rfl)

/-! ### Parts that start alike are alike -/

/-- Tokens of one kind end where something else comes next. -/
theorem map_unique {α : Type} {token : α → Placed Token} (injective : Function.Injective token)
    {P : Token → Prop} (stops : ∀ a, ¬ P (token a).value) {as as' : List α} (h : NextIs P rest)
    (h' : NextIs P rest') (heq : as.map token ++ rest = as'.map token ++ rest') :
    as = as' ∧ rest = rest' := by
  induction as generalizing as' with
  | nil =>
      cases as' with
      | nil => exact ⟨rfl, heq⟩
      | cons a' as' =>
          obtain rfl : rest = _ := heq
          exact absurd (nextIs_cons.mp h) (stops a')
  | cons a as ih =>
      cases as' with
      | nil =>
          obtain rfl : _ = rest' := heq
          exact absurd (nextIs_cons.mp h') (stops a)
      | cons a' as' =>
          obtain ⟨hhead, htail⟩ := List.cons.inj heq
          obtain rfl := injective hhead
          obtain ⟨rfl, rfl⟩ := ih htail
          exact ⟨rfl, rfl⟩

/-- A token that may be absent is there if it comes next. -/
theorem option_unique {α : Type} {token : α → Placed Token} (injective : Function.Injective token)
    {P : Token → Prop} (stops : ∀ a, ¬ P (token a).value) {a a' : Option α} (h : NextIs P rest)
    (h' : NextIs P rest') (heq : a.toList.map token ++ rest = a'.toList.map token ++ rest') :
    a = a' ∧ rest = rest' := by
  obtain ⟨hlist, hrest⟩ := map_unique injective stops h h' heq
  exact ⟨by simpa using congrArg List.head? hlist, hrest⟩

theorem marks_unique {marks marks' : List (Placed Mark)} (h : NextIs EndsStep rest)
    (h' : NextIs EndsStep rest') (heq : markTokens marks ++ rest = markTokens marks' ++ rest') :
    marks = marks' ∧ rest = rest' :=
  map_unique (Placed.map_injective Mark.token_injective) (fun mark => not_endsStep_mark mark.value)
    h h' heq

theorem axis_unique {axis axis' : Option (Placed Axis)} {step step' : Element}
    (heq : axisTokens axis ++ (tokensOf step.pieces ++ rest) =
      axisTokens axis' ++ (tokensOf step'.pieces ++ rest')) :
    axis = axis' ∧ tokensOf step.pieces ++ rest = tokensOf step'.pieces ++ rest' :=
  option_unique (Placed.map_injective axisToken_injective)
    (fun axis => not_startsElement_axisToken axis.value) (nextIs_element step)
    (nextIs_element step') heq

theorem not_endsElement_quantifier (quantifier : Quantifier) :
    ¬ EndsElement quantifier.token := by
  rintro ⟨h, -⟩
  rw [quantifier?_token] at h
  exact absurd h (by simp)

theorem lazyTokens_unique {lazily lazily' : Option Nat} (h : NextIs EndsElement rest)
    (h' : NextIs EndsElement rest')
    (heq : lazyTokens lazily ++ rest = lazyTokens lazily' ++ rest') :
    lazily = lazily' ∧ rest = rest' :=
  option_unique (fun _ _ h => (Placed.mk.inj h).2)
    (fun _ => not_endsElement_quantifier .optional) h h' heq

theorem times_unique {body body' : Pattern} {times times' : Option Times}
    (h : NextIs EndsElement rest) (h' : NextIs EndsElement rest')
    (heq : tokensOf (timesPieces body times) ++ rest =
      tokensOf (timesPieces body' times') ++ rest') : times = times' ∧ rest = rest' := by
  cases times with
  | none =>
      cases times' with
      | none => exact ⟨rfl, heq⟩
      | some times' =>
          obtain rfl : rest = _ := heq
          exact absurd (nextIs_cons.mp h) (not_endsElement_quantifier times'.quantifier.value)
  | some times =>
      cases times' with
      | none =>
          obtain rfl : _ = rest' := heq
          exact absurd (nextIs_cons.mp h') (not_endsElement_quantifier times.quantifier.value)
      | some times' =>
          obtain ⟨quantifier, lazily⟩ := times
          obtain ⟨quantifier', lazily'⟩ := times'
          simp only [timesPieces, tokensOf_token, tokensOf_repeated, tokensOf_map_token,
            List.cons_append] at heq
          obtain ⟨hquantifier, htail⟩ := List.cons.inj heq
          obtain rfl := Placed.map_injective Quantifier.token_injective hquantifier
          obtain ⟨rfl, rfl⟩ := lazyTokens_unique h h' htail
          exact ⟨rfl, rfl⟩

theorem nextIs_times (body : Pattern) (times : Option Times) (h : NextIs EndsElement rest) :
    NextIs (· ≠ .colon) (tokensOf (timesPieces body times) ++ rest) := by
  cases times with
  | none => exact h.mono fun _ h => h.2
  | some times =>
      refine nextIs_cons.mpr ?_
      show times.quantifier.value.token ≠ .colon
      cases times.quantifier.value <;> exact Token.noConfusion

/-- A word is a name to capture under only if a colon comes after it. -/
theorem ne_capture_of_next (primary : Primary) (h : NextIs (· ≠ .colon) rest) {name : String}
    {position colon : Nat} {rest' : List (Placed Token)} :
    tokensOf primary.pieces ++ rest ≠ ⟨.word name, position⟩ :: ⟨.colon, colon⟩ :: rest' := by
  intro heq
  cases primary with
  | word text =>
      obtain ⟨-, hcolon⟩ : _ ∧ rest = _ := List.cons.inj heq
      rw [hcolon] at h
      exact nextIs_cons.mp h rfl
  | group opening inner closing =>
      rw [Primary.pieces] at heq
      exact Token.noConfusion (Placed.mk.inj (List.cons.inj heq).1).1
  | _ => exact Token.noConfusion (Placed.mk.inj (List.cons.inj heq).1).1

theorem not_capture_and_plain {name : Placed String} {colon : Nat} {body : Element}
    {body' : Primary} {times' : Option Times} (h' : NextIs EndsElement rest')
    (heq : tokensOf (Element.capture name colon body).pieces ++ rest =
      tokensOf (Element.plain body' times').pieces ++ rest') : False := by
  simp only [Element.pieces, List.cons_append, tokensOf_token, tokensOf_append,
    List.append_assoc] at heq
  exact ne_capture_of_next body' (nextIs_times body'.pattern times' h') heq.symm

-- The induction is on the first derivation.  Where the two start with different rules, one of them
-- ends where the other goes on, which what comes next does not allow.
mutual

theorem Branches.unique : ∀ (branches branches' : Branches) {rest rest' : List (Placed Token)},
    NextIs EndsBranches rest → NextIs EndsBranches rest' →
    tokensOf branches.pieces ++ rest = tokensOf branches'.pieces ++ rest' →
      branches = branches' ∧ rest = rest'
  | .mk first others, .mk first' others', _, _, h, h', heq => by
      simp only [Branches.pieces, tokensOf_append, List.append_assoc] at heq
      obtain ⟨rfl, hothers⟩ := Sequence.unique first first' (nextIs_branches others h)
        (nextIs_branches others' h') heq
      obtain ⟨rfl, rfl⟩ := MoreBranches.unique others others' h h' hothers
      exact ⟨rfl, rfl⟩

theorem MoreBranches.unique : ∀ (others others' : MoreBranches) {rest rest' : List (Placed Token)},
    NextIs EndsBranches rest → NextIs EndsBranches rest' →
    tokensOf others.pieces ++ rest = tokensOf others'.pieces ++ rest' →
      others = others' ∧ rest = rest'
  | .nil, .nil, _, _, _, _, heq => ⟨rfl, heq⟩
  | .nil, .cons bar branch others, _, _, h, _, heq => by
      rw [MoreBranches.pieces] at heq
      obtain rfl : _ = _ :: _ := heq
      exact absurd (nextIs_cons.mp h) not_endsBranches_bar
  | .cons bar branch others, .nil, _, _, _, h', heq => by
      rw [MoreBranches.pieces] at heq
      obtain rfl : _ :: _ = _ := heq
      exact absurd (nextIs_cons.mp h') not_endsBranches_bar
  | .cons bar branch others, .cons bar' branch' others', _, _, h, h', heq => by
      simp only [MoreBranches.pieces, List.cons_append, tokensOf_token, tokensOf_append,
        List.append_assoc] at heq
      obtain ⟨hbar, hbranch⟩ := List.cons.inj heq
      obtain ⟨-, rfl⟩ := Placed.mk.inj hbar
      obtain ⟨rfl, hothers⟩ := Sequence.unique branch branch' (nextIs_branches others h)
        (nextIs_branches others' h') hbranch
      obtain ⟨rfl, rfl⟩ := MoreBranches.unique others others' h h' hothers
      exact ⟨rfl, rfl⟩

theorem Sequence.unique : ∀ (sequence sequence' : Sequence) {rest rest' : List (Placed Token)},
    NextIs EndsSequence rest → NextIs EndsSequence rest' →
    tokensOf sequence.pieces ++ rest = tokensOf sequence'.pieces ++ rest' →
      sequence = sequence' ∧ rest = rest'
  | .mk first marks steps, .mk first' marks' steps', _, _, h, h', heq => by
      simp only [Sequence.pieces, tokensOf_append, tokensOf_map_token, List.append_assoc] at heq
      obtain ⟨rfl, hmarks⟩ := Element.unique first first'
        (nextIs_marks marks (nextIs_steps steps h))
        (nextIs_marks marks' (nextIs_steps steps' h')) heq
      obtain ⟨rfl, hsteps⟩ := marks_unique (nextIs_steps steps h) (nextIs_steps steps' h') hmarks
      obtain ⟨rfl, rfl⟩ := MoreSteps.unique steps steps' h h' hsteps
      exact ⟨rfl, rfl⟩

theorem MoreSteps.unique : ∀ (steps steps' : MoreSteps) {rest rest' : List (Placed Token)},
    NextIs EndsSequence rest → NextIs EndsSequence rest' →
    tokensOf steps.pieces ++ rest = tokensOf steps'.pieces ++ rest' →
      steps = steps' ∧ rest = rest'
  | .nil, .nil, _, _, _, _, heq => ⟨rfl, heq⟩
  | .nil, .cons axis step marks steps, _, _, h, _, heq => by
      obtain ⟨token, tail, htokens, -, hstarts⟩ := exists_startsStep axis step marks steps
      rw [htokens] at heq
      obtain rfl : _ = _ :: _ := heq
      exact absurd (nextIs_cons.mp h) hstarts
  | .cons axis step marks steps, .nil, _, _, _, h', heq => by
      obtain ⟨token, tail, htokens, -, hstarts⟩ := exists_startsStep axis step marks steps
      rw [htokens] at heq
      obtain rfl : _ :: _ = _ := heq
      exact absurd (nextIs_cons.mp h') hstarts
  | .cons axis step marks steps, .cons axis' step' marks' steps', _, _, h, h', heq => by
      simp only [MoreSteps.pieces, tokensOf_append, tokensOf_map_token, List.append_assoc] at heq
      obtain ⟨rfl, hstep⟩ := axis_unique heq
      obtain ⟨rfl, hmarks⟩ := Element.unique step step' (nextIs_marks marks (nextIs_steps steps h))
        (nextIs_marks marks' (nextIs_steps steps' h')) hstep
      obtain ⟨rfl, hsteps⟩ := marks_unique (nextIs_steps steps h) (nextIs_steps steps' h') hmarks
      obtain ⟨rfl, rfl⟩ := MoreSteps.unique steps steps' h h' hsteps
      exact ⟨rfl, rfl⟩

theorem Element.unique : ∀ (element element' : Element) {rest rest' : List (Placed Token)},
    NextIs EndsElement rest → NextIs EndsElement rest' →
    tokensOf element.pieces ++ rest = tokensOf element'.pieces ++ rest' →
      element = element' ∧ rest = rest'
  | .capture name colon body, .capture name' colon' body', _, _, h, h', heq => by
      simp only [Element.pieces, List.cons_append, tokensOf_token, tokensOf_append,
        tokensOf_ended, tokensOf_nil, List.append_nil] at heq
      obtain ⟨hname, hrest⟩ := List.cons.inj heq
      obtain ⟨hcolon, hbody⟩ := List.cons.inj hrest
      obtain rfl := Placed.map_injective (fun _ _ => Token.word.inj) hname
      obtain ⟨-, rfl⟩ := Placed.mk.inj hcolon
      obtain ⟨rfl, rfl⟩ := Element.unique body body' h h' hbody
      exact ⟨rfl, rfl⟩
  | .capture .., .plain .., _, _, _, h', heq => (not_capture_and_plain h' heq).elim
  | .plain .., .capture .., _, _, h, _, heq => (not_capture_and_plain h heq.symm).elim
  | .plain body times, .plain body' times', _, _, h, h', heq => by
      simp only [Element.pieces, tokensOf_append, List.append_assoc] at heq
      obtain ⟨rfl, htimes⟩ := Primary.unique body body' heq
      obtain ⟨rfl, rfl⟩ := times_unique h h' htimes
      exact ⟨rfl, rfl⟩

theorem Primary.unique : ∀ (primary primary' : Primary) {rest rest' : List (Placed Token)},
    tokensOf primary.pieces ++ rest = tokensOf primary'.pieces ++ rest' →
      primary = primary' ∧ rest = rest'
  | .word text, primary', _, _, heq => by
      cases primary' with
      | word text' =>
          obtain ⟨htext, hrest⟩ := List.cons.inj heq
          obtain rfl := Placed.map_injective (fun _ _ => Token.word.inj) htext
          exact ⟨rfl, hrest⟩
      | _ => simp [Primary.pieces, Placed.map] at heq
  | .quoted text, primary', _, _, heq => by
      cases primary' with
      | quoted text' =>
          obtain ⟨htext, hrest⟩ := List.cons.inj heq
          obtain rfl := Placed.map_injective (fun _ _ => Token.quoted.inj) htext
          exact ⟨rfl, hrest⟩
      | _ => simp [Primary.pieces, Placed.map] at heq
  | .any position, primary', _, _, heq => by
      cases primary' with
      | any position' =>
          obtain ⟨hdot, hrest⟩ := List.cons.inj heq
          obtain ⟨-, rfl⟩ := Placed.mk.inj hdot
          exact ⟨rfl, hrest⟩
      | _ => simp [Primary.pieces, Placed.map] at heq
  | .predicate name, primary', _, _, heq => by
      cases primary' with
      | predicate name' =>
          obtain ⟨hname, hrest⟩ := List.cons.inj heq
          obtain rfl := Placed.map_injective (fun _ _ => Token.predicate.inj) hname
          exact ⟨rfl, hrest⟩
      | _ => simp [Primary.pieces, Placed.map] at heq
  | .reference name, primary', _, _, heq => by
      cases primary' with
      | reference name' =>
          obtain ⟨hname, hrest⟩ := List.cons.inj heq
          obtain rfl := Placed.map_injective (fun _ _ => Token.reference.inj) hname
          exact ⟨rfl, hrest⟩
      | _ => simp [Primary.pieces, Placed.map] at heq
  | .group opening inner closing, primary', _, _, heq => by
      cases primary' with
      | group opening' inner' closing' =>
          simp only [Primary.pieces, List.cons_append, tokensOf_token, tokensOf_append,
            tokensOf_nil, List.nil_append, List.append_assoc] at heq
          obtain ⟨hopening, hinner⟩ := List.cons.inj heq
          obtain ⟨-, rfl⟩ := Placed.mk.inj hopening
          obtain ⟨rfl, hrest⟩ := Branches.unique inner inner' (nextIs_cons.mpr (.inl rfl))
            (nextIs_cons.mpr (.inl rfl)) hinner
          obtain ⟨hclosing, rfl⟩ := List.cons.inj hrest
          obtain ⟨-, rfl⟩ := Placed.mk.inj hclosing
          exact ⟨rfl, rfl⟩
      | _ => simp [Primary.pieces, Placed.map] at heq

end

end Grammar

end TreeRules
