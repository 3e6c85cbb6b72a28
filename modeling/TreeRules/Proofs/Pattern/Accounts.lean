/-
The pieces of a derivation account for the pattern that it means.

A pattern that has been read shows no longer where its parts stood in the text.  The pieces of the
derivation do, and nothing in the pattern is without its pieces: every reference is a token, every
repetition was read and allowed behind its quantifier, and a capture ends where the element ends
that it captures.  So what is asked of the pieces, one by one as they come, is asked of all parts
of the pattern, however deep they lie.

Each token accounts for two parts at most.  An alternation or a sequence has no token of its own,
but there are at least two patterns in it.
-/
import TreeRules.Proofs.Pattern.Accepts
import TreeRules.Proofs.Pattern.Counted

namespace TreeRules

open TreeRules.Text

namespace Grammar

open Pattern

/-- The name that a token refers back to. -/
def nameOf? (token : Placed Token) : Option String :=
  match token.value with
  | .reference name => some name
  | _ => none

theorem nameOf?_eq_none {token : Placed Token} (h : ∀ name, token.value ≠ .reference name) :
    nameOf? token = none := by
  unfold nameOf?
  split
  · rename_i name hname
    exact absurd hname (h name)
  · rfl

theorem filterMap_nameOf?_eq_nil {tokens : List (Placed Token)}
    (h : ∀ token ∈ tokens, ∀ name, token.value ≠ .reference name) : tokens.filterMap nameOf? = [] :=
  List.filterMap_eq_nil_iff.mpr fun token hmem => nameOf?_eq_none (h token hmem)

/-! ### Where captures end -/

/-- Each capture that ends among the pieces is one of the parts, and ends where the element ends
that it captures. -/
def Closes (parts : List Pattern) (pieces : List Piece) : Prop :=
  ∀ before name after, pieces = before ++ .ended name :: after →
    ∃ front place colon element,
      before ++ [.ended name] = front ++ (Element.capture ⟨name, place⟩ colon element).pieces ∧
        .capture name element.pattern ∈ parts

section

variable {parts parts' : List Pattern} {count count' : Nat} {pieces pieces' : List Piece}

namespace Closes

theorem mono (h : Closes parts pieces) (hsubset : parts ⊆ parts') : Closes parts' pieces := by
  intro before name after heq
  obtain ⟨front, place, colon, element, hsplit, hmem⟩ := h before name after heq
  exact ⟨front, place, colon, element, hsplit, hsubset hmem⟩

theorem append (h : Closes parts pieces) (h' : Closes parts pieces') :
    Closes parts (pieces ++ pieces') := by
  -- what ends among the later pieces has the earlier ones before it
  have hlater : ∀ before name after, pieces' = before ++ .ended name :: after →
      ∃ front place colon element, pieces ++ before ++ [.ended name] =
        front ++ (Element.capture ⟨name, place⟩ colon element).pieces ∧
          .capture name element.pattern ∈ parts := by
    intro before name after heq
    obtain ⟨front, place, colon, element, hsplit, hmem⟩ := h' before name after heq
    refine ⟨pieces ++ front, place, colon, element, ?_, hmem⟩
    rw [List.append_assoc, hsplit, List.append_assoc]
  intro before name after heq
  rcases List.append_eq_append_iff.mp heq with ⟨middle, rfl, hrest⟩ | ⟨middle, hpieces, hrest⟩
  · exact hlater middle name after hrest
  · cases middle with
    | nil =>
        rw [List.append_nil] at hpieces
        have hfirst := hlater [] name after hrest.symm
        rwa [List.append_nil, hpieces] at hfirst
    | cons piece middle =>
        obtain ⟨rfl, -⟩ := List.cons.inj hrest
        exact h before name middle hpieces

/-- Where no capture ends there is nothing to show. -/
theorem of_endedIn_nil (h : endedIn pieces = []) : Closes parts pieces := by
  intro before name after heq
  rw [heq, endedIn_append, endedIn_ended] at h
  exact absurd h (by simp)

/-- The end of a capture, behind its element. -/
theorem ended {name : Placed String} {colon : Nat} {element : Element}
    (hmem : .capture name.value element.pattern ∈ parts) (h : Closes parts element.pieces) :
    Closes parts (Element.capture name colon element).pieces := by
  have hbefore : Closes parts [.token (name.map .word), .token ⟨.colon, colon⟩] :=
    .of_endedIn_nil rfl
  have hinside := hbefore.append h
  intro before name' after heq
  rw [Element.pieces] at heq
  by_cases hafter : after = []
  · -- the capture itself is the last to end
    rw [hafter] at heq
    obtain ⟨hbefore, hlast⟩ := List.append_inj' heq rfl
    obtain rfl : name.value = name' := by simpa using hlast
    refine ⟨[], name.position, colon, element, ?_, hmem⟩
    rw [Element.pieces, ← hbefore]
    rfl
  · obtain ⟨init, last, rfl⟩ := (List.eq_nil_or_concat after).resolve_left hafter
    rw [List.concat_eq_append, ← List.cons_append, ← List.append_assoc] at heq
    exact hinside before name' init (List.append_inj' heq rfl).1

end Closes

/-! ### Pieces that account for parts -/

/-- The pieces account for these parts, which make up `count` patterns side by side. -/
structure Accounts (parts : List Pattern) (count : Nat) (pieces : List Piece) : Prop where
  references : parts.filterMap reference? = (tokensOf pieces).filterMap nameOf?
  repeated : ∀ body min max greedy, .repetition body min max greedy ∈ parts →
    .repeated body min max ∈ pieces ∧ ∃ quantifier : Placed Quantifier,
      quantifier.value.min = min ∧ quantifier.value.max = max ∧
        quantifier.map Quantifier.token ∈ tokensOf pieces
  captured : Closes parts pieces
  few : parts.length + count ≤ 2 * (tokensOf pieces).length

namespace Accounts

theorem append (h : Accounts parts count pieces) (h' : Accounts parts' count' pieces') :
    Accounts (parts ++ parts') (count + count') (pieces ++ pieces') where
  references := by
    rw [List.filterMap_append, h.references, h'.references, tokensOf_append, List.filterMap_append]
  repeated := by
    intro body min max greedy hmem
    rw [tokensOf_append]
    rcases List.mem_append.mp hmem with hmem | hmem
    · obtain ⟨hpiece, quantifier, hmin, hmax, htoken⟩ := h.repeated body min max greedy hmem
      exact ⟨List.mem_append_left _ hpiece, quantifier, hmin, hmax, List.mem_append_left _ htoken⟩
    · obtain ⟨hpiece, quantifier, hmin, hmax, htoken⟩ := h'.repeated body min max greedy hmem
      exact ⟨List.mem_append_right _ hpiece, quantifier, hmin, hmax, List.mem_append_right _ htoken⟩
  captured :=
    (h.captured.mono (List.subset_append_left _ _)).append
      (h'.captured.mono (List.subset_append_right _ _))
  few := by
    have hfew := h.few
    have hfew' := h'.few
    rw [List.length_append, tokensOf_append, List.length_append]
    omega

theorem nil : Accounts [] 0 [] where
  references := rfl
  repeated := by simp
  captured := .of_endedIn_nil rfl
  few := Nat.le_refl _

/-- Tokens that refer to nothing may stand anywhere. -/
theorem tokens {tokens : List (Placed Token)}
    (plain : ∀ token ∈ tokens, ∀ name, token.value ≠ .reference name) :
    Accounts [] 0 (tokens.map .token) where
  references := by
    rw [tokensOf_map_token, filterMap_nameOf?_eq_nil plain]
    rfl
  repeated := by simp
  captured := .of_endedIn_nil (endedIn_map_token tokens)
  few := by simp

/-- A token that refers to nothing may stand anywhere. -/
theorem token {token : Placed Token} (plain : ∀ name, token.value ≠ .reference name) :
    Accounts [] 0 [.token token] :=
  tokens fun _ hmem => List.mem_singleton.mp hmem ▸ plain

/-- What consumes one node, or none, is one token. -/
theorem single {p : Pattern} {token : Placed Token} (h : reference? p = nameOf? token)
    (hrepeated : ∀ body min max greedy, p ≠ .repetition body min max greedy) :
    Accounts [p] 1 [.token token] where
  references := by
    rw [tokensOf_token, tokensOf_nil, List.filterMap_cons, List.filterMap_cons, h]
    rfl
  repeated := by
    intro body min max greedy hmem
    exact absurd (List.mem_singleton.mp hmem).symm (hrepeated body min max greedy)
  captured := .of_endedIn_nil rfl
  few := by simp

/-- A pattern around two others or more. -/
theorem around {p : Pattern} (h : Accounts parts count pieces) (hcount : 2 ≤ count)
    (hreference : reference? p = none)
    (hrepeated : ∀ body min max greedy, p ≠ .repetition body min max greedy) :
    Accounts (p :: parts) 1 pieces where
  references := by
    rw [List.filterMap_cons, hreference]
    exact h.references
  repeated := by
    intro body min max greedy hmem
    rcases List.mem_cons.mp hmem with heq | hmem
    · exact absurd heq.symm (hrepeated body min max greedy)
    · exact h.repeated body min max greedy hmem
  captured := h.captured.mono (List.subset_cons_self _ _)
  few := by
    have hfew := h.few
    rw [List.length_cons]
    omega

theorem two_le_length {α : Type} {list : List α} (hne : list ≠ []) (hsingle : ∀ a, list ≠ [a]) :
    2 ≤ list.length := by
  have hpos := List.length_pos_of_ne_nil hne
  have hone : list.length ≠ 1 := by
    intro h
    obtain ⟨a, heq⟩ := List.length_eq_one_iff.mp h
    exact hsingle a heq
  omega

theorem ofSteps {steps : List (Option Axis × Pattern)} (hne : steps ≠ [])
    (h : Accounts (partsOfSteps steps) steps.length pieces) :
    Accounts (Pattern.ofSteps steps).parts 1 pieces := by
  unfold Pattern.ofSteps
  split
  · rwa [partsOfSteps, partsOfSteps, List.append_nil] at h
  · rename_i hsingle
    rw [parts]
    exact h.around (two_le_length hne fun step => hsingle step.1 step.2) rfl
      fun _ _ _ _ => Pattern.noConfusion

theorem ofBranches {branches : List Pattern} (hne : branches ≠ [])
    (h : Accounts (partsOfBranches branches) branches.length pieces) :
    Accounts (Pattern.ofBranches branches).parts 1 pieces := by
  unfold Pattern.ofBranches
  split
  · rwa [partsOfBranches, partsOfBranches, List.append_nil] at h
  · rename_i hsingle
    rw [parts]
    exact h.around (two_le_length hne hsingle) rfl fun _ _ _ _ => Pattern.noConfusion

/-- A repetition is allowed where its quantifier stands. -/
theorem repetition {body : Pattern} (h : Accounts body.parts 1 pieces) (times : Option Times) :
    Accounts (timesPattern body times).parts 1 (pieces ++ timesPieces body times) := by
  cases times with
  | none => rwa [timesPieces, List.append_nil]
  | some times =>
      obtain ⟨quantifier, lazily⟩ := times
      have htokens : tokensOf (timesPieces body (some ⟨quantifier, lazily⟩)) =
          quantifier.map Quantifier.token :: lazyTokens lazily :=
        congrArg _ (tokensOf_map_token _)
      have hplain : ∀ token ∈ quantifier.map Quantifier.token :: lazyTokens lazily,
          ∀ name, token.value ≠ .reference name := by
        refine List.forall_mem_cons.mpr ⟨quantifier_ne_reference quantifier.value, ?_⟩
        intro token htoken name
        obtain ⟨position, -, rfl⟩ := List.mem_map.mp htoken
        exact Token.noConfusion
      rw [timesPattern, parts]
      refine ⟨?_, ?_, ?_, ?_⟩
      · rw [tokensOf_append, htokens, List.filterMap_append, filterMap_nameOf?_eq_nil hplain,
          List.append_nil, ← h.references]
        rfl
      · intro inner min max greedy hmem
        rw [tokensOf_append, htokens]
        rcases List.mem_cons.mp hmem with heq | hmem
        · obtain ⟨rfl, rfl, rfl, -⟩ := Pattern.repetition.inj heq
          refine ⟨?_, quantifier, rfl, rfl, List.mem_append_right _ List.mem_cons_self⟩
          simp [timesPieces]
        · obtain ⟨hpiece, token, hmin, hmax, htoken⟩ := h.repeated inner min max greedy hmem
          exact ⟨List.mem_append_left _ hpiece, token, hmin, hmax, List.mem_append_left _ htoken⟩
      · exact (h.captured.mono (List.subset_cons_self _ _)).append
          (.of_endedIn_nil (endedIn_timesPieces body _))
      · have hfew := h.few
        rw [List.length_cons, tokensOf_append, List.length_append, htokens, List.length_cons]
        omega

/-- A capture ends where its element does. -/
theorem capture {name : Placed String} {colon : Nat} {element : Element}
    (h : Accounts element.pattern.parts 1 element.pieces) :
    Accounts (Element.capture name colon element).pattern.parts 1
      (Element.capture name colon element).pieces := by
  have htokens : tokensOf (Element.capture name colon element).pieces =
      name.map .word :: ⟨.colon, colon⟩ :: tokensOf element.pieces := by
    simp [Element.pieces]
  rw [Element.pattern, parts]
  refine ⟨?_, ?_, ?_, ?_⟩
  · rw [htokens, List.filterMap_cons, h.references]
    rfl
  · intro body min max greedy hmem
    rcases List.mem_cons.mp hmem with heq | hmem
    · cases heq
    · obtain ⟨hpiece, quantifier, hmin, hmax, htoken⟩ := h.repeated body min max greedy hmem
      refine ⟨?_, quantifier, hmin, hmax, ?_⟩
      · rw [Element.pieces]
        simp [hpiece]
      · rw [htokens]
        simp [htoken]
  · exact .ended List.mem_cons_self (h.captured.mono (List.subset_cons_self _ _))
  · have hfew := h.few
    rw [htokens, List.length_cons, List.length_cons, List.length_cons]
    omega

/-- **A reference comes after the whole element of a capture of its name**, and the capture is one
of the parts. -/
theorem exists_capture (h : Accounts parts count pieces) (hbackward : Backward [] pieces)
    {before after : List Piece} {name : String} {position : Nat}
    (heq : pieces = before ++ .token ⟨.reference name, position⟩ :: after) :
    ∃ front place colon element back,
      before = front ++ (Element.capture ⟨name, place⟩ colon element).pieces ++ back ∧
        .capture name element.pattern ∈ parts := by
  have hmem : name ∈ endedIn before := hbackward before name position after heq
  obtain ⟨piece, hpiece, hended⟩ := List.mem_filterMap.mp hmem
  obtain rfl : piece = .ended name := by
    cases piece with
    | ended other => exact congrArg _ (Option.some.inj hended)
    | token _ => cases hended
    | repeated _ _ _ => cases hended
  obtain ⟨earlier, back, rfl⟩ := List.append_of_mem hpiece
  obtain ⟨front, place, colon, element, hsplit, hcapture⟩ :=
    h.captured earlier name (back ++ .token ⟨.reference name, position⟩ :: after)
      (by rw [heq, List.append_assoc, List.cons_append])
  refine ⟨front, place, colon, element, back, ?_, hcapture⟩
  rw [← hsplit, List.append_assoc, List.singleton_append]

end Accounts

end

/-! ### What a derivation accounts for -/

theorem accounts_marks (marks : List (Placed Mark)) :
    Accounts (partsOfSteps (marks.map markStep)) marks.length ((markTokens marks).map .token) := by
  induction marks with
  | nil => exact .nil
  | cons mark marks ih =>
      have hmark : Accounts mark.value.pattern.parts 1 [.token (mark.map Mark.token)] := by
        obtain ⟨mark, position⟩ := mark
        cases mark with
        | leaf => exact .single rfl fun _ _ _ _ => Pattern.noConfusion
        | parent => exact .single rfl fun _ _ _ _ => Pattern.noConfusion
      rw [List.map_cons, markStep, partsOfSteps, List.length_cons, Nat.add_comm]
      exact hmark.append ih

theorem accounts_axis (axis : Option (Placed Axis)) :
    Accounts [] 0 ((axisTokens axis).map .token) := by
  refine .tokens fun token htoken name => ?_
  obtain ⟨axis, -, rfl⟩ := List.mem_map.mp htoken
  exact axisToken_ne_reference axis.value name

theorem partsOfSteps_append (steps steps' : List (Option Axis × Pattern)) :
    partsOfSteps (steps ++ steps') = partsOfSteps steps ++ partsOfSteps steps' := by
  induction steps with
  | nil => rfl
  | cons step steps ih =>
      rw [List.cons_append, partsOfSteps, partsOfSteps, ih, List.append_assoc]

mutual

/-- **The pieces of a derivation account for the pattern that it means.** -/
theorem accounts_element : ∀ element : Element, Accounts element.pattern.parts 1 element.pieces
  | .capture _ _ body => .capture (accounts_element body)
  | .plain body times => by
      rw [Element.pattern, Element.pieces]
      exact (accounts_primary body).repetition times

theorem accounts_primary : ∀ primary : Primary, Accounts primary.pattern.parts 1 primary.pieces
  | .word _ | .quoted _ | .any _ | .predicate _ | .reference _ => by
      rw [Primary.pattern, Primary.pieces, parts]
      exact .single rfl fun _ _ _ _ => Pattern.noConfusion
  | .group opening inner closing => by
      have hopening : Accounts [] 0 [.token ⟨.openParen, opening⟩] :=
        .token fun _ => Token.noConfusion
      have hclosing : Accounts [] 0 [.token ⟨.closeParen, closing⟩] :=
        .token fun _ => Token.noConfusion
      have hall := (hopening.append (accounts_branches inner)).append hclosing
      rw [Primary.pattern, Primary.pieces]
      rwa [List.append_nil] at hall

theorem accounts_branches : ∀ branches : Branches,
    Accounts branches.pattern.parts 1 branches.pieces
  | .mk first others => by
      rw [Branches.pattern, Branches.pieces]
      refine .ofBranches (List.cons_ne_nil _ _) ?_
      rw [partsOfBranches, List.length_cons, Nat.add_comm]
      exact (accounts_sequence first).append (accounts_moreBranches others)

theorem accounts_moreBranches : ∀ others : MoreBranches,
    Accounts (partsOfBranches others.patterns) others.patterns.length others.pieces
  | .nil => .nil
  | .cons bar branch others => by
      have hbar : Accounts [] 0 [.token ⟨.bar, bar⟩] := .token fun _ => Token.noConfusion
      have hall := hbar.append ((accounts_sequence branch).append (accounts_moreBranches others))
      rw [MoreBranches.patterns, MoreBranches.pieces, partsOfBranches, List.length_cons]
      rwa [Nat.zero_add, Nat.add_comm] at hall

theorem accounts_sequence : ∀ sequence : Sequence,
    Accounts sequence.pattern.parts 1 sequence.pieces
  | .mk first marks steps => by
      have hall := ((accounts_element first).append (accounts_marks marks)).append
        (accounts_moreSteps steps)
      rw [Sequence.pattern, Sequence.pieces]
      refine .ofSteps (List.cons_ne_nil _ _) ?_
      rw [partsOfSteps_append, partsOfSteps, List.length_append, List.length_cons, List.length_map]
      rwa [Nat.add_comm 1] at hall

theorem accounts_moreSteps : ∀ steps : MoreSteps,
    Accounts (partsOfSteps steps.steps) steps.steps.length steps.pieces
  | .nil => .nil
  | .cons axis step marks steps => by
      have hall := (((accounts_axis axis).append (accounts_element step)).append
        (accounts_marks marks)).append (accounts_moreSteps steps)
      rw [MoreSteps.steps, MoreSteps.pieces, partsOfSteps_append, partsOfSteps, List.length_append,
        List.length_cons, List.length_map]
      rwa [List.nil_append, Nat.zero_add, Nat.add_comm 1] at hall

end

namespace Derivation

/-- What stands in the derivation of the pattern, from left to right. -/
def pieces (d : Derivation) : List Piece := (leadTokens d.lead).map .token ++ d.branches.pieces

theorem tokens_eq (d : Derivation) : d.tokens = tokensOf d.pieces ++ arrowTokens d.arrow := by
  rw [pieces, tokensOf_append, tokensOf_map_token, List.append_assoc]
  rfl

theorem accounts (d : Derivation) : Accounts d.pattern.parts 1 d.pieces := by
  obtain ⟨lead, branches, arrow⟩ := d
  have hbranches := accounts_branches branches
  cases lead with
  | none => exact hbranches
  | some lead =>
      obtain ⟨lead, position⟩ := lead
      cases lead with
      | anywhere =>
          have hlead : Accounts [] 0 [.token ⟨.doubleSlash, position⟩] :=
            .token fun _ => Token.noConfusion
          exact hlead.append hbranches
      | atRoot =>
          have hlead : Accounts [.anchor .root] 1 [.token ⟨.slash, position⟩] :=
            .single rfl (by simp)
          show Accounts (Pattern.sequence _).parts 1 _
          rw [parts, partsOfSteps, partsOfSteps, partsOfSteps, List.append_nil, parts]
          exact (hlead.append hbranches).around (by decide) rfl fun _ _ _ _ => Pattern.noConfusion

/-- The sign in front closes no capture and refers to none. -/
theorem Admissible.backward_pieces {maxBound : Nat} {d : Derivation} (h : d.Admissible maxBound) :
    Backward [] d.pieces := by
  obtain ⟨lead, branches, arrow⟩ := d
  cases lead with
  | none => exact h.backward
  | some lead =>
      refine backward_cons.mpr ⟨fun name position heq => ?_, h.backward⟩
      obtain ⟨lead, place⟩ := lead
      cases lead <;> cases heq

theorem mem_pieces_of_repeated {d : Derivation} {body : Pattern} {min : Nat} {max : Option Nat}
    (h : .repeated body min max ∈ d.pieces) : .repeated body min max ∈ d.branches.pieces := by
  rcases List.mem_append.mp h with h | h
  · simp at h
  · exact h

end Derivation

/-- **The anchor at the root comes first and only there.** -/
theorem root_of_mem_leadPattern {lead : Option (Placed Lead)} {branches : Branches}
    (h : .anchor .root ∈ (leadPattern lead branches.pattern).parts) :
    leadPattern lead branches.pattern =
        .sequence [(none, .anchor .root), (none, branches.pattern)] ∧
      .anchor .root ∉ branches.pattern.parts := by
  have hbranches := root_not_mem_parts _ (keepsTo_branches branches)
  unfold leadPattern at h ⊢
  split at h
  · exact ⟨rfl, hbranches⟩
  · exact absurd h hbranches

end Grammar

end TreeRules
