/-
What is derived is read.

Where a derivation starts and something that ends it comes after it, a reader reads its pieces and
answers with the pattern that it means.  The induction is on the derivation; what comes next decides
each choice that a reader makes.
-/
import TreeRules.Proofs.Pattern.Derivable
import TreeRules.Proofs.Pattern.Unambiguous

namespace TreeRules

open TreeRules.Text

namespace Grammar

theorem Reads.rest_eq {maxBound : Nat} {pieces : List Piece} {s s' : ReadState}
    (h : Reads maxBound pieces s s') : s.rest = tokensOf pieces ++ s'.rest := (reads_iff.mp h).1

/-! ### Marks and quantifiers -/

theorem readMarks_markTokens (marks : List (Placed Mark)) {rest : List (Placed Token)}
    (h : NextIs EndsStep rest) :
    Pattern.readMarks (markTokens marks ++ rest) = (marks.map markStep, rest) := by
  induction marks with
  | nil =>
      cases rest with
      | nil => rfl
      | cons token rest =>
          show Pattern.readMarks (token :: rest) = ([], token :: rest)
          rw [Pattern.readMarks, (nextIs_cons.mp h).2]
  | cons mark marks ih =>
      show Pattern.readMarks (mark.map Mark.token :: (markTokens marks ++ rest)) = _
      have hmark : (mark.map Mark.token).value.mark? = some mark.value.pattern :=
        mark?_token mark.value
      rw [Pattern.readMarks, hmark, ih]
      rfl

theorem readMarks_of_reads {maxBound : Nat} {marks : List (Placed Mark)} {s s' : ReadState}
    (h : Reads maxBound ((markTokens marks).map .token) s s') (hnext : NextIs EndsStep s'.rest) :
    s' = { s with rest := (Pattern.readMarks s.rest).2 } ∧
      (Pattern.readMarks s.rest).1 = marks.map markStep := by
  obtain ⟨hrest, hclosed⟩ := reads_markTokens.mp h
  rw [hrest, readMarks_markTokens marks hnext, ← hclosed]
  exact ⟨rfl, rfl⟩

theorem nextIs_before_marks {maxBound : Nat} {marks : List (Placed Mark)} {s s' : ReadState}
    (h : Reads maxBound ((markTokens marks).map .token) s s') (hnext : NextIs EndsStep s'.rest) :
    NextIs EndsElement s.rest := by
  rw [(reads_markTokens.mp h).1]
  exact nextIs_marks marks hnext

theorem nextIs_before_steps {maxBound : Nat} {steps : MoreSteps} {s s' : ReadState}
    (h : Reads maxBound steps.pieces s s') (hnext : NextIs EndsSequence s'.rest) :
    NextIs EndsStep s.rest := by
  rw [h.rest_eq]
  exact nextIs_steps steps hnext

theorem nextIs_before_branches {maxBound : Nat} {others : MoreBranches} {s s' : ReadState}
    (h : Reads maxBound others.pieces s s') (hnext : NextIs EndsBranches s'.rest) :
    NextIs EndsSequence s.rest := by
  rw [h.rest_eq]
  exact nextIs_branches others hnext

theorem quantifier?_next {rest : List (Placed Token)} (h : NextIs EndsElement rest) :
    (rest.head?.map (·.value)).bind Token.quantifier? = none := by
  cases rest with
  | nil => rfl
  | cons token rest => exact (nextIs_cons.mp h).1

/-- A question mark after a quantifier belongs to it, and nothing else does. -/
theorem lazily_next (lazily : Option Nat) {rest : List (Placed Token)}
    (h : NextIs EndsElement rest) :
    ((lazyTokens lazily ++ rest).head?.map (·.value) == some .question) = lazily.isSome ∧
      (if lazily.isSome = true then (lazyTokens lazily ++ rest).tail
        else lazyTokens lazily ++ rest) = rest := by
  cases lazily with
  | some position => exact ⟨rfl, rfl⟩
  | none =>
      refine ⟨?_, rfl⟩
      cases rest with
      | nil => rfl
      | cons token rest =>
          refine beq_false_of_ne fun heq => not_endsElement_quantifier .optional ?_
          have htoken : token.value = .question := Option.some.inj heq
          have hends : EndsElement token.value := nextIs_cons.mp h
          rw [htoken] at hends
          exact hends

theorem gives_readQuantifier {ctx : ReadContext} {body : Pattern} {times : Option Times}
    {s s' : ReadState} (h : Reads ctx.maxBound (timesPieces body times) s s')
    (hnext : NextIs EndsElement s'.rest) :
    Gives (Pattern.readQuantifier ctx body s) (timesPattern body times) s' := by
  unfold Pattern.readQuantifier
  cases times with
  | none =>
      obtain rfl : s' = s := h
      split
      · exact gives_ok.mpr rfl
      · rename_i token rest hrest
        rw [hrest] at hnext
        rw [(nextIs_cons.mp hnext).1]
        exact gives_ok.mpr rfl
  | some times =>
      obtain ⟨quantifier, lazily⟩ := times
      obtain ⟨hallowed, hrest, hclosed⟩ := reads_timesPieces.mp h
      obtain ⟨hfault, hlength⟩ := (allowed_iff lazily.isNone).mp hallowed
      split
      · rename_i hnil
        rw [hnil] at hrest
        exact absurd hrest (by simp)
      · rename_i token rest hcons
        obtain ⟨rfl, hlazy⟩ : token = quantifier.map Quantifier.token ∧
            rest = lazyTokens lazily ++ s'.rest := List.cons.inj (hcons.symm.trans hrest)
        obtain ⟨hhead, htail⟩ := lazily_next lazily hnext
        rw [← hlazy] at hhead htail
        have hquantifier : (quantifier.map Quantifier.token).value.quantifier? = _ :=
          quantifier?_token quantifier.value
        rw [hquantifier]
        dsimp -zeta only
        extract_lets lazily' after
        have hlazily : lazily' = lazily.isSome := hhead
        have hafter : after = s' := by
          show ReadState.mk (if lazily' = true then rest.tail else rest) s.closed = s'
          rw [hlazily, htail, ← hclosed]
        have hstops : ¬ (after.peek.bind Token.quantifier?).isSome = true := by
          rw [hafter, ReadState.peek, quantifier?_next hnext]
          exact Bool.false_ne_true
        rw [hfault]
        dsimp -zeta only
        rw [if_neg hstops]
        rename_i repeated
        have hrepeated : repeated = timesPattern body (some ⟨quantifier, lazily⟩) := by
          show Pattern.repetition body _ _ (!lazily') = _
          rw [hlazily]
          cases lazily <;> rfl
        rw [if_neg]
        · exact gives_ok.mpr (Prod.ext hrepeated hafter)
        · rw [hrepeated]
          exact Nat.not_lt_of_le hlength

/-! ### The readers -/

variable {ctx : ReadContext}

mutual

theorem gives_readBranches : ∀ (branches : Branches) {s s' : ReadState},
    Reads ctx.maxBound branches.pieces s s' → NextIs EndsBranches s'.rest →
      Gives (Pattern.readBranches ctx s) branches.pattern s'
  | .mk first others, s, s', h, hnext => by
      rw [Branches.pieces] at h
      obtain ⟨s₁, hfirst, hothers⟩ := reads_append.mp h
      have hread := gives_readSequence first hfirst (nextIs_before_branches hothers hnext)
      have hread' := gives_readMoreBranches others hothers hnext
      rw [Pattern.readBranches, Branches.pattern]
      exact hread.bind fun _ => hread'.bind fun _ => gives_ok.mpr rfl

theorem gives_readMoreBranches : ∀ (others : MoreBranches) {s s' : ReadState},
    Reads ctx.maxBound others.pieces s s' → NextIs EndsBranches s'.rest →
      Gives (Pattern.readMoreBranches ctx s) others.patterns s'
  | .nil, s, s', h, hnext => by
      obtain rfl : s' = s := h
      rw [Pattern.readMoreBranches, MoreBranches.patterns]
      split
      · rename_i bar rest hrest
        rw [hrest] at hnext
        exact absurd (nextIs_cons.mp hnext) not_endsBranches_bar
      · exact gives_ok.mpr rfl
  | .cons bar branch others, ⟨_, closed⟩, s', h, hnext => by
      rw [MoreBranches.pieces] at h
      obtain ⟨rest, rfl, -, h⟩ := h
      obtain ⟨s₁, hbranch, hothers⟩ := reads_append.mp h
      have hread := gives_readSequence branch hbranch (nextIs_before_branches hothers hnext)
      have hread' := gives_readMoreBranches others hothers hnext
      rw [Pattern.readMoreBranches, MoreBranches.patterns]
      exact hread.bind fun _ => hread'.bind fun _ => gives_ok.mpr rfl

theorem gives_readSequence : ∀ (sequence : Sequence) {s s' : ReadState},
    Reads ctx.maxBound sequence.pieces s s' → NextIs EndsSequence s'.rest →
      Gives (Pattern.readSequence ctx s) sequence.pattern s'
  | .mk first marks steps, s, s', h, hnext => by
      rw [Sequence.pieces] at h
      obtain ⟨s₂, h, hsteps⟩ := reads_append.mp h
      obtain ⟨s₁, hfirst, hmarks⟩ := reads_append.mp h
      have hnext₂ := nextIs_before_steps hsteps hnext
      have hread := gives_readElement first hfirst (nextIs_before_marks hmarks hnext₂)
      obtain ⟨rfl, hsteps'⟩ := readMarks_of_reads hmarks hnext₂
      have hread' := gives_readMoreSteps steps hsteps hnext
      rw [Pattern.readSequence, Sequence.pattern, ← hsteps']
      exact hread.bind fun _ => hread'.bind fun _ => gives_ok.mpr rfl

theorem gives_readMoreSteps : ∀ (steps : MoreSteps) {s s' : ReadState},
    Reads ctx.maxBound steps.pieces s s' → NextIs EndsSequence s'.rest →
      Gives (Pattern.readMoreSteps ctx s) steps.steps s'
  | .nil, s, s', h, hnext => by
      obtain rfl : s' = s := h
      rw [Pattern.readMoreSteps, MoreSteps.steps]
      split
      · exact gives_ok.mpr rfl
      · rename_i token rest hrest
        rw [hrest] at hnext
        have hends := nextIs_cons.mp hnext
        rw [hends.axis?_eq, if_neg (by rw [hends.startsElement_eq]; exact Bool.false_ne_true)]
        exact gives_ok.mpr rfl
  | .cons axis step marks steps, s, s', h, hnext => by
      rw [MoreSteps.pieces] at h
      obtain ⟨s₃, h, hsteps⟩ := reads_append.mp h
      obtain ⟨s₂, h, hmarks⟩ := reads_append.mp h
      obtain ⟨s₁, haxis, hstep⟩ := reads_append.mp h
      have hnext₃ := nextIs_before_steps hsteps hnext
      have hread := gives_readElement step hstep (nextIs_before_marks hmarks hnext₃)
      obtain ⟨rfl, hsteps'⟩ := readMarks_of_reads hmarks hnext₃
      have hread' := gives_readMoreSteps steps hsteps hnext
      rw [Pattern.readMoreSteps, MoreSteps.steps, ← hsteps']
      cases axis with
      | none =>
          -- the step starts with its element, and no element starts like an axis
          obtain rfl : s₁ = s := haxis
          obtain ⟨token, tail, htokens, hstarts⟩ := exists_startsElement step
          have hrest : s₁.rest = token :: (tail ++ s₂.rest) := by
            rw [hstep.rest_eq, htokens]
            rfl
          split
          · rename_i hnil
            exact absurd (hnil.symm.trans hrest) (by simp)
          · rename_i token' rest' hcons
            obtain ⟨rfl, -⟩ := List.cons.inj (hcons.symm.trans hrest)
            rw [axis?_of_startsElement hstarts, if_pos hstarts]
            exact hread.bind fun _ => hread'.bind fun _ => gives_ok.mpr rfl
      | some axis =>
          obtain ⟨rest, hrest, -, hs₁⟩ := haxis
          obtain rfl : s₁ = { s with rest } := hs₁
          split
          · rename_i hnil
            exact absurd (hnil.symm.trans hrest) (by simp)
          · rename_i token' rest' hcons
            obtain ⟨rfl, rfl⟩ := List.cons.inj (hcons.symm.trans hrest)
            have htoken : (axis.map axisToken).value.axis? = some axis.value :=
              axis?_axisToken axis.value
            rw [htoken]
            exact hread.bind fun _ => hread'.bind fun _ => gives_ok.mpr rfl

theorem gives_readElement : ∀ (element : Element) {s s' : ReadState},
    Reads ctx.maxBound element.pieces s s' → NextIs EndsElement s'.rest →
      Gives (Pattern.readElement ctx s) element.pattern s'
  | .capture name colon body, ⟨_, closed⟩, s', h, hnext => by
      rw [Element.pieces] at h
      obtain ⟨_, rfl, -, rest, rfl, -, h⟩ := h
      obtain ⟨s₁, hbody, rfl⟩ := reads_append.mp h
      have hread := gives_readElement body hbody hnext
      rw [Pattern.readElement, Element.pattern]
      exact hread.bind fun _ => gives_ok.mpr rfl
  | .plain body times, s, s', h, hnext => by
      rw [Element.pieces] at h
      obtain ⟨s₁, hbody, htimes⟩ := reads_append.mp h
      have hread := gives_readPrimary body hbody
      have hread' := gives_readQuantifier htimes hnext
      rw [Pattern.readElement, Element.pattern]
      split
      · -- no colon comes after the primary, so it is not a name to capture under
        rename_i name position colon rest hrest
        have hnext₁ : NextIs (· ≠ .colon) s₁.rest := by
          rw [htimes.rest_eq]
          exact nextIs_times body.pattern times hnext
        rw [hbody.rest_eq] at hrest
        exact absurd hrest (ne_capture_of_next body hnext₁)
      · exact hread.bind fun _ => hread'.bind fun _ => gives_ok.mpr rfl

theorem gives_readPrimary : ∀ (primary : Primary) {s s' : ReadState},
    Reads ctx.maxBound primary.pieces s s' → Gives (Pattern.readPrimary ctx s) primary.pattern s'
  | .word text, ⟨_, closed⟩, s', h => by
      obtain ⟨rest, rfl, -, rfl⟩ := h
      rw [Pattern.readPrimary]
      exact gives_ok.mpr rfl
  | .quoted text, ⟨_, closed⟩, s', h => by
      obtain ⟨rest, rfl, -, rfl⟩ := h
      rw [Pattern.readPrimary]
      exact gives_ok.mpr rfl
  | .any position, ⟨_, closed⟩, s', h => by
      obtain ⟨rest, rfl, -, rfl⟩ := h
      rw [Pattern.readPrimary]
      exact gives_ok.mpr rfl
  | .predicate name, ⟨_, closed⟩, s', h => by
      obtain ⟨rest, rfl, -, rfl⟩ := h
      rw [Pattern.readPrimary]
      exact gives_ok.mpr rfl
  | .reference name, ⟨_, closed⟩, s', h => by
      obtain ⟨rest, rfl, hknown, rfl⟩ := h
      have hclosed : closed.contains name.value = true :=
        List.contains_iff_mem.mpr (hknown name.value rfl)
      rw [Pattern.readPrimary]
      refine (congrArg (Gives · _ _) (if_pos hclosed)).mpr ?_
      exact gives_ok.mpr rfl
  | .group opening inner closing, ⟨_, closed⟩, s', h => by
      rw [Primary.pieces] at h
      obtain ⟨rest, rfl, -, h⟩ := h
      obtain ⟨⟨_, closed₁⟩, hinner, rest₁, rfl, -, rfl⟩ := reads_append.mp h
      have hread := gives_readBranches inner hinner (nextIs_cons.mpr (.inl rfl))
      rw [Pattern.readPrimary, Primary.pattern]
      exact hread.bind fun _ => gives_ok.mpr rfl

end

end Grammar

end TreeRules
