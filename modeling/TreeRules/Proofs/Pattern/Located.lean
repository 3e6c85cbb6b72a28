/-
Where patterns and templates are at fault.

Cutting a text into tokens stops at a character that starts no token, or at the opening of one that
is broken off; what stands before it has been cut.  Every reader of tokens leaves an ending of the
tokens that it was given, or fails at one of them or at the end of the text.  So an error is always
told where a token starts, at the character at fault, or at the end.
-/
import TreeRules.Proofs.Pattern.Accepts
import TreeRules.Proofs.Pattern.Append
import TreeRules.Proofs.Text.Position

namespace TreeRules

open TreeRules.Text

namespace Token

variable {start finish : Nat} {c : Char} {cs rest : List Char} {tokens : List (Placed Token)}
  {e : CompileError}

/-! ### How far a text is cut -/

/-- The text from `start` is cut into these tokens and what comes at `finish`. -/
inductive CutTo : (start : Nat) → List Char → List (Placed Token) → (finish : Nat) → List Char →
    Prop where
  | nil (start : Nat) (cs : List Char) : CutTo start cs [] start cs
  | blank {start : Nat} {c : Char} {cs : List Char} {tokens : List (Placed Token)} {finish : Nat}
      {rest : List Char} (hblank : isBlank c = true)
      (h : CutTo (start + c.utf8Size) cs tokens finish rest) :
      CutTo start (c :: cs) tokens finish rest
  | token {start : Nat} {c : Char} {cs : List Char} {taken : Taken Token}
      {tokens : List (Placed Token)} {finish : Nat} {rest : List Char} (hblank : isBlank c = false)
      (begins : Begins start c cs taken)
      (h : CutTo (start + taken.width) taken.rest tokens finish rest) :
      CutTo start (c :: cs) (⟨taken.value, start⟩ :: tokens) finish rest

/-- What comes where cutting has come to stands there. -/
theorem CutTo.standsAt (h : CutTo start cs tokens finish rest) :
    ∃ place, finish = start + place ∧ StandsAt cs place rest := by
  induction h with
  | nil start cs => exact ⟨0, rfl, .start cs⟩
  | @blank start c cs tokens finish rest hblank h ih =>
      obtain ⟨place, rfl, before, rfl, rfl⟩ := ih
      exact ⟨byteWidth (c :: before), by rw [byteWidth_cons]; omega, c :: before, rfl, rfl⟩
  | @token start c cs taken tokens finish rest hblank begins h ih =>
      obtain ⟨place, rfl, before, hrest, rfl⟩ := ih
      obtain ⟨part, hpart, hwidth⟩ := begins.exists_part
      refine ⟨byteWidth (part ++ before), by rw [byteWidth_append, hwidth]; omega,
        part ++ before, ?_, rfl⟩
      rw [hpart, hrest, List.append_assoc]

/-! ### Where cutting fails -/

theorem position_of_takeBraces (h : takeBraces start cs = .error e) : e.position = start := by
  unfold takeBraces at h
  dsimp only at h
  split at h
  · obtain rfl := Except.error.inj h
    rfl
  · obtain rfl := Except.error.inj h
    rfl
  · split at h
    · split at h
      · obtain rfl := Except.error.inj h
        rfl
      · split at h
        · cases h
        · obtain rfl := Except.error.inj h
          rfl
    · split at h
      · cases h
      · obtain rfl := Except.error.inj h
        rfl

/-- No token is taken where one is opened and broken off, or where none starts. -/
theorem of_take_error (h : take start c cs = .error e) :
    e.position = start ∧
      (c = '"' ∨ c = '[' ∨ c = '\x7b' ∨ e = .malformed (.unexpectedChar c) start) := by
  unfold take at h
  split at h
  · cases h
  · cases h
  · split at h
    · obtain rfl := Except.error.inj h
      exact ⟨rfl, .inl rfl⟩
    · cases h
  · split at h
    · obtain rfl := Except.error.inj h
      exact ⟨rfl, .inr (.inl rfl)⟩
    · cases h
  · split at h
    · rename_i hbraces
      obtain rfl := Except.error.inj h
      exact ⟨position_of_takeBraces hbraces, .inr (.inr (.inl rfl))⟩
    · cases h
  · split at h
    · cases h
    · split at h
      · cases h
      · split at h
        · cases h
        · obtain rfl := Except.error.inj h
          exact ⟨rfl, .inr (.inr (.inr rfl))⟩

/-- **A text that is not cut into tokens is cut up to where the first token is missing.** -/
theorem exists_cutTo_of_error : ∀ (cs : List Char) {start : Nat}, readFrom start cs = .error e →
    ∃ tokens c after, CutTo start cs tokens e.position (c :: after) ∧ isBlank c = false ∧
      take e.position c after = .error e
  | [], start, h => by
      rw [readFrom] at h
      cases h
  | c :: cs, start, h => by
      cases hblank : isBlank c with
      | true =>
          rw [readFrom, if_pos hblank] at h
          obtain ⟨tokens, d, after, hcut, hrest⟩ := exists_cutTo_of_error cs h
          exact ⟨tokens, d, after, .blank hblank hcut, hrest⟩
      | false =>
          cases htake : take start c cs with
          | error e' =>
              have hread : readFrom start (c :: cs) = .error e' := by
                rw [readFrom, if_neg (by simp [hblank])]
                split
                · rename_i e'' heq
                  rw [htake] at heq
                  rw [Except.error.inj heq]
                · rename_i taken heq
                  rw [htake] at heq
                  cases heq
              obtain rfl := Except.error.inj (hread.symm.trans h)
              have hposition := (of_take_error htake).1
              rw [hposition]
              exact ⟨[], c, cs, .nil start (c :: cs), hblank, htake⟩
          | ok taken =>
              have hle := length_rest_take htake
              have hcuts : Cuts start (c :: cs) [⟨taken.value, start⟩] (start + taken.width)
                taken.rest := .cons hblank htake (.nil _ _)
              unfold Cuts at hcuts
              rw [h] at hcuts
              cases hmore : readFrom (start + taken.width) taken.rest with
              | ok more =>
                  rw [hmore] at hcuts
                  cases hcuts
              | error e' =>
                  rw [hmore] at hcuts
                  obtain rfl := Except.error.inj hcuts
                  obtain ⟨tokens, d, after, hcut, hrest⟩ := exists_cutTo_of_error taken.rest hmore
                  exact ⟨_, d, after, .token hblank (take_eq_ok_iff.mp htake) hcut, hrest⟩
  termination_by cs => cs.length

end Token

/-! ### Where reading fails -/

variable {α β : Type} {ctx : ReadContext} {tokens tokens' : List (Placed Token)} {e : CompileError}

/-- The error is told at one of these tokens, or at the end of the text. -/
def PointsAt (ctx : ReadContext) (tokens : List (Placed Token)) (e : CompileError) : Prop :=
  e.position = ctx.finish ∨ ∃ token ∈ tokens, e.position = token.position

theorem PointsAt.mono (h : PointsAt ctx tokens e) (hle : tokens <:+ tokens') :
    PointsAt ctx tokens' e := by
  rcases h with h | ⟨token, hmem, h⟩
  · exact .inl h
  · exact .inr ⟨token, hle.subset hmem, h⟩

/-- A reader of these tokens leaves an ending of them, or fails at one of them or at the end. -/
def Confined (ctx : ReadContext) (tokens : List (Placed Token)) (left : α → List (Placed Token)) :
    Except CompileError α → Prop
  | .ok a => left a <:+ tokens
  | .error e => PointsAt ctx tokens e

namespace Confined

variable {left : α → List (Placed Token)} {left' : β → List (Placed Token)}
  {x : Except CompileError α}

theorem mono (h : Confined ctx tokens left x) (hle : tokens <:+ tokens') :
    Confined ctx tokens' left x := by
  cases x with
  | ok a => exact List.IsSuffix.trans h hle
  | error e => exact PointsAt.mono h hle

/-- One reader after another. -/
theorem bind {next : α → Except CompileError β} (h : Confined ctx tokens left x)
    (hnext : ∀ a, x = .ok a → Confined ctx (left a) left' (next a)) :
    Confined ctx tokens left' (x >>= next) := by
  cases x with
  | ok a => exact (hnext a rfl).mono h
  | error e => exact h

/-- Where a reader fails is told of without what it leaves. -/
theorem stay (h : Confined ctx tokens left x) : Confined ctx tokens (fun _ => tokens) x := by
  cases x with
  | ok a => exact List.suffix_refl tokens
  | error e => exact h

end Confined

namespace ReadState

theorem pointsAt_position (ctx : ReadContext) (s : ReadState) (he : e.position = s.position ctx) :
    PointsAt ctx s.rest e := by
  obtain ⟨rest, closed⟩ := s
  cases rest with
  | nil => exact .inl he
  | cons token rest => exact .inr ⟨token, List.mem_cons_self, he⟩

/-- What comes next is where something else should have come. -/
theorem pointsAt_unexpected (ctx : ReadContext) (s : ReadState) (expected : Expected) :
    PointsAt ctx s.rest (s.unexpected ctx expected) :=
  s.pointsAt_position ctx rfl

end ReadState

theorem pointsAt_head {token : Placed Token} (htokens : tokens = token :: tokens')
    (he : e.position = token.position) : PointsAt ctx tokens e := by
  rw [htokens]
  exact .inr ⟨token, List.mem_cons_self, he⟩

theorem suffix_of_eq_cons {token : Placed Token} (htokens : tokens = token :: tokens') :
    tokens' <:+ tokens := by
  rw [htokens]
  exact List.suffix_cons token tokens'

/-- What is left of the tokens when a reader has answered. -/
def leftover {P : α × ReadState → Prop} (r : { r // P r }) : List (Placed Token) := r.val.2.rest

namespace Pattern

theorem readMarks_suffix (tokens : List (Placed Token)) : (readMarks tokens).2 <:+ tokens := by
  obtain ⟨marks, -, htokens⟩ := Grammar.readMarks_eq tokens
  exact ⟨_, htokens.symm⟩

theorem confined_readQuantifier (ctx : ReadContext) (body : Pattern) (s : ReadState) :
    Confined ctx s.rest leftover (readQuantifier ctx body s) := by
  unfold readQuantifier
  split
  · exact List.suffix_refl s.rest
  · rename_i token rest hrest
    split
    · exact List.suffix_refl s.rest
    · extract_lets lazily after
      have hafter : after.rest <:+ s.rest := by
        refine List.IsSuffix.trans ?_ (suffix_of_eq_cons hrest)
        show (if lazily = true then rest.tail else rest) <:+ rest
        split
        · exact List.tail_suffix rest
        · exact List.suffix_refl rest
      split
      · exact pointsAt_head hrest rfl
      · split
        · exact (after.pointsAt_position ctx rfl).mono hafter
        · split
          · exact pointsAt_head hrest rfl
          · exact hafter

/-! ### Patterns -/

mutual

theorem confined_readBranches (ctx : ReadContext) (s : ReadState) :
    Confined ctx s.rest leftover (readBranches ctx s) := by
  rw [readBranches]
  refine (confined_readSequence ctx s).bind fun ⟨(first, s₁), h₁⟩ _ => ?_
  refine (confined_readMoreBranches ctx s₁).bind fun ⟨(others, s₂), h₂⟩ _ => ?_
  exact List.suffix_refl s₂.rest
  termination_by (s.rest.length, 4)

theorem confined_readMoreBranches (ctx : ReadContext) (s : ReadState) :
    Confined ctx s.rest leftover (readMoreBranches ctx s) := by
  rw [readMoreBranches]
  split
  · rename_i bar rest hrest
    have hlt := length_lt_of_eq_cons hrest
    have hfirst := confined_readSequence ctx { s with rest }
    refine Confined.mono ?_ (suffix_of_eq_cons hrest)
    refine hfirst.bind fun ⟨(branch, s₁), h₁⟩ _ => ?_
    have hlt₁ : s₁.rest.length < s.rest.length := Nat.lt_trans h₁ hlt
    refine (confined_readMoreBranches ctx s₁).bind fun ⟨(branches, s₂), h₂⟩ _ => ?_
    exact List.suffix_refl s₂.rest
  · exact List.suffix_refl s.rest
  termination_by (s.rest.length, 5)
  decreasing_by all_goals exact Prod.Lex.left _ _ (by assumption)

theorem confined_readSequence (ctx : ReadContext) (s : ReadState) :
    Confined ctx s.rest leftover (readSequence ctx s) := by
  rw [readSequence]
  refine (confined_readElement ctx s).bind fun ⟨(first, s₁), h₁⟩ _ => ?_
  have hlt : (readMarks s₁.rest).2.length < s.rest.length :=
    Nat.lt_of_le_of_lt (length_readMarks s₁.rest) h₁
  have hsteps := confined_readMoreSteps ctx { s₁ with rest := (readMarks s₁.rest).2 }
  refine Confined.mono ?_ (readMarks_suffix s₁.rest)
  refine hsteps.bind fun ⟨(steps, s₂), h₂⟩ _ => ?_
  exact List.suffix_refl s₂.rest
  termination_by (s.rest.length, 3)
  decreasing_by
  · exact Prod.Lex.right _ (by decide)
  · exact Prod.Lex.left _ _ hlt

theorem confined_readMoreSteps (ctx : ReadContext) (s : ReadState) :
    Confined ctx s.rest leftover (readMoreSteps ctx s) := by
  rw [readMoreSteps]
  split
  · exact List.suffix_refl s.rest
  · rename_i token rest hrest
    have hlt := length_lt_of_eq_cons hrest
    split
    · have helement := confined_readElement ctx { s with rest }
      refine Confined.mono ?_ (suffix_of_eq_cons hrest)
      refine helement.bind fun ⟨(step, s₁), h₁⟩ _ => ?_
      have hlt₁ : (readMarks s₁.rest).2.length < s.rest.length :=
        Nat.lt_of_le_of_lt (length_readMarks s₁.rest) (Nat.lt_trans h₁ hlt)
      have hsteps := confined_readMoreSteps ctx { s₁ with rest := (readMarks s₁.rest).2 }
      refine Confined.mono ?_ (readMarks_suffix s₁.rest)
      refine hsteps.bind fun ⟨(steps, s₂), h₂⟩ _ => ?_
      exact List.suffix_refl s₂.rest
    · split
      · have helement := confined_readElement ctx s
        refine helement.bind fun ⟨(step, s₁), h₁⟩ _ => ?_
        have hlt₁ : (readMarks s₁.rest).2.length < s.rest.length :=
          Nat.lt_of_le_of_lt (length_readMarks s₁.rest) h₁
        have hsteps := confined_readMoreSteps ctx { s₁ with rest := (readMarks s₁.rest).2 }
        refine Confined.mono ?_ (readMarks_suffix s₁.rest)
        refine hsteps.bind fun ⟨(steps, s₂), h₂⟩ _ => ?_
        exact List.suffix_refl s₂.rest
      · exact List.suffix_refl s.rest
  termination_by (s.rest.length, 3)
  decreasing_by
  · exact Prod.Lex.left _ _ hlt
  · exact Prod.Lex.left _ _ hlt₁
  · exact Prod.Lex.right _ (by decide)
  · exact Prod.Lex.left _ _ hlt₁

theorem confined_readElement (ctx : ReadContext) (s : ReadState) :
    Confined ctx s.rest leftover (readElement ctx s) := by
  rw [readElement]
  split
  · rename_i name position colon rest hrest
    have hlt := Nat.lt_of_succ_lt (length_lt_of_eq_cons hrest)
    have hbody := confined_readElement ctx { s with rest }
    refine Confined.mono ?_ ((List.suffix_cons _ rest).trans (suffix_of_eq_cons hrest))
    refine hbody.bind fun ⟨(body, s₁), h₁⟩ _ => ?_
    exact List.suffix_refl s₁.rest
  · refine (confined_readPrimary ctx s).bind fun ⟨(body, s₁), h₁⟩ _ => ?_
    refine (confined_readQuantifier ctx body s₁).bind fun ⟨(element, s₂), h₂⟩ _ => ?_
    exact List.suffix_refl s₂.rest
  termination_by (s.rest.length, 2)
  decreasing_by
  · exact Prod.Lex.left _ _ hlt
  · exact Prod.Lex.right _ (by decide)

theorem confined_readPrimary (ctx : ReadContext) (s : ReadState) :
    Confined ctx s.rest leftover (readPrimary ctx s) := by
  rw [readPrimary]
  split
  · rename_i hrest
    exact suffix_of_eq_cons hrest
  · rename_i hrest
    exact suffix_of_eq_cons hrest
  · rename_i hrest
    exact suffix_of_eq_cons hrest
  · rename_i hrest
    exact suffix_of_eq_cons hrest
  · rename_i hrest
    split
    · exact suffix_of_eq_cons hrest
    · exact pointsAt_head hrest rfl
  · rename_i opening rest hrest
    have hlt := length_lt_of_eq_cons hrest
    have hinner := confined_readBranches ctx { s with rest }
    refine Confined.mono ?_ (suffix_of_eq_cons hrest)
    refine hinner.bind fun ⟨(inner, s₁), h₁⟩ _ => ?_
    dsimp only
    split
    · rename_i closing rest₂ hrest₂
      exact suffix_of_eq_cons hrest₂
    · exact s₁.pointsAt_unexpected ctx .closeParen
  · exact s.pointsAt_unexpected ctx .element
  termination_by (s.rest.length, 1)
  decreasing_by exact Prod.Lex.left _ _ hlt

end

theorem confined_readPattern (ctx : ReadContext) (tokens : List (Placed Token)) :
    Confined ctx tokens (·.2.rest) (readPattern ctx tokens) := by
  unfold readPattern
  split
  · rename_i rest
    refine Confined.mono ?_ (List.suffix_cons _ rest)
    refine (confined_readBranches ctx { rest }).bind fun r _ => ?_
    exact List.suffix_refl r.val.2.rest
  · rename_i rest
    refine Confined.mono ?_ (List.suffix_cons _ rest)
    refine (confined_readBranches ctx { rest }).bind fun r _ => ?_
    exact List.suffix_refl r.val.2.rest
  · refine (confined_readBranches ctx { rest := tokens }).bind fun r _ => ?_
    exact List.suffix_refl r.val.2.rest

end Pattern

/-! ### Templates -/

namespace TemplateNode

mutual

theorem confined_readList (ctx : ReadContext) (s : ReadState) :
    Confined ctx s.rest leftover (readList ctx s) := by
  rw [readList]
  refine (confined_readNode ctx s).bind fun ⟨(first, s₁), h₁⟩ _ => ?_
  refine (confined_readMore ctx s₁).bind fun ⟨(others, s₂), h₂⟩ _ => ?_
  exact List.suffix_refl s₂.rest
  termination_by (s.rest.length, 1)

theorem confined_readMore (ctx : ReadContext) (s : ReadState) :
    Confined ctx s.rest leftover (readMore ctx s) := by
  rw [readMore]
  split
  · rename_i comma rest hrest
    have hlt := length_lt_of_eq_cons hrest
    have hfirst := confined_readNode ctx { s with rest }
    refine Confined.mono ?_ (suffix_of_eq_cons hrest)
    refine hfirst.bind fun ⟨(first, s₁), h₁⟩ _ => ?_
    have hlt₁ : s₁.rest.length < s.rest.length := Nat.lt_trans h₁ hlt
    refine (confined_readMore ctx s₁).bind fun ⟨(others, s₂), h₂⟩ _ => ?_
    exact List.suffix_refl s₂.rest
  · exact List.suffix_refl s.rest
  termination_by (s.rest.length, 2)
  decreasing_by all_goals exact Prod.Lex.left _ _ (by assumption)

theorem confined_readNode (ctx : ReadContext) (s : ReadState) :
    Confined ctx s.rest leftover (readNode ctx s) := by
  rw [readNode]
  split
  · rename_i text position rest hrest
    have hlt := length_lt_of_eq_cons hrest
    have hbeneath := confined_readChildren ctx { s with rest }
    refine Confined.mono ?_ (suffix_of_eq_cons hrest)
    refine hbeneath.bind fun ⟨(beneath, s₁), h₁⟩ _ => ?_
    exact List.suffix_refl s₁.rest
  · rename_i text position rest hrest
    have hlt := length_lt_of_eq_cons hrest
    have hbeneath := confined_readChildren ctx { s with rest }
    refine Confined.mono ?_ (suffix_of_eq_cons hrest)
    refine hbeneath.bind fun ⟨(beneath, s₁), h₁⟩ _ => ?_
    exact List.suffix_refl s₁.rest
  · rename_i name position rest hrest
    split
    · exact pointsAt_head hrest rfl
    · exact suffix_of_eq_cons hrest
  · exact s.pointsAt_unexpected ctx .templateNode
  termination_by (s.rest.length, 0)
  decreasing_by all_goals exact Prod.Lex.left _ _ hlt

theorem confined_readChildren (ctx : ReadContext) (s : ReadState) :
    Confined ctx s.rest leftover (readChildren ctx s) := by
  rw [readChildren]
  split
  · rename_i slash opening rest hrest
    have hlt := Nat.lt_of_succ_lt (length_lt_of_eq_cons hrest)
    have hnodes := confined_readList ctx { s with rest }
    refine Confined.mono ?_ ((List.suffix_cons _ rest).trans (suffix_of_eq_cons hrest))
    refine hnodes.bind fun ⟨(nodes, s₁), h₁⟩ _ => ?_
    dsimp only
    split
    · rename_i closing rest₂ hrest₂
      exact suffix_of_eq_cons hrest₂
    · exact s₁.pointsAt_unexpected ctx .closeParen
  · rename_i slash rest _ hrest
    have hlt := length_lt_of_eq_cons hrest
    have honly := confined_readNode ctx { s with rest }
    refine Confined.mono ?_ (suffix_of_eq_cons hrest)
    refine honly.bind fun ⟨(only, s₁), h₁⟩ _ => ?_
    exact List.suffix_refl s₁.rest
  · exact List.suffix_refl s.rest
  termination_by (s.rest.length, 3)
  decreasing_by all_goals exact Prod.Lex.left _ _ hlt

end

end TemplateNode

theorem Template.confined_readFrom (ctx : ReadContext) (s : ReadState) :
    Confined ctx s.rest (·.2.rest) (Template.readFrom ctx s) := by
  unfold Template.readFrom
  split
  · exact List.suffix_refl s.rest
  · refine (TemplateNode.confined_readList ctx s).bind fun r _ => ?_
    exact List.suffix_refl r.val.2.rest

theorem ReadState.confined_finish (ctx : ReadContext) (s : ReadState) :
    Confined ctx s.rest (fun _ => []) (s.finish ctx) := by
  unfold ReadState.finish
  split
  · exact List.nil_suffix
  · exact s.pointsAt_unexpected ctx .finish

namespace CompiledPattern

open Grammar

theorem confined_readArrow (ctx : ReadContext) (s : ReadState) :
    Confined ctx s.rest (·.2.rest) (readArrow ctx s) := by
  unfold readArrow
  split
  · rename_i position rest hrest
    refine Confined.mono ?_ (suffix_of_eq_cons hrest)
    refine (Template.confined_readFrom ctx { s with rest }).bind fun r _ => ?_
    exact List.suffix_refl r.2.rest
  · exact List.suffix_refl s.rest

/-- A name that is not declared is told of where the template refers to it. -/
theorem pointsAt_check {ctx : ReadContext} {arrow : Arrow} {names : List String} {e : CompileError}
    (h : arrow.template.check names = .error e) : PointsAt ctx (arrowTokens (some arrow)) e := by
  unfold Template.check at h
  cases hfound : arrow.template.undeclared? names with
  | none =>
      rw [hfound] at h
      cases h
  | some found =>
      obtain ⟨name, position⟩ := found
      rw [hfound] at h
      obtain rfl := Except.error.inj h
      have hmem := List.mem_of_find?_eq_some hfound
      rw [references_template] at hmem
      obtain ⟨token, htoken, hreference⟩ := List.mem_filterMap.mp hmem
      obtain ⟨rfl, -⟩ := eq_of_captureReference? hreference
      exact .inr ⟨_, List.mem_cons_of_mem _ htoken, rfl⟩

/-- **Tokens that are refused are refused at one of them, or at the end of the text.** -/
theorem pointsAt_readTokens {ctx : ReadContext} {tokens : List (Placed Token)} {e : CompileError}
    (h : readTokens ctx tokens = .error e) : PointsAt ctx tokens e := by
  have hread : Confined ctx tokens (fun _ => [])
      (.error e : Except CompileError (Pattern × Option Template)) := by
    rw [← h]
    refine (Pattern.confined_readPattern ctx tokens).bind fun ⟨pattern, s⟩ _ => ?_
    refine (confined_readArrow ctx s).stay.bind fun ⟨template, s'⟩ harrow => ?_
    have hsuffix : s'.rest <:+ s.rest := by
      have hconfined := confined_readArrow ctx s
      rw [harrow] at hconfined
      exact hconfined
    refine ((s'.confined_finish ctx).mono hsuffix).stay.bind fun _ hfinish => ?_
    obtain ⟨arrow, hrest, rfl⟩ := of_readArrow harrow (finish_eq_ok.mp hfinish)
    cases arrow with
    | none => exact List.nil_suffix
    | some arrow =>
        show Confined ctx s.rest _ (arrow.template.check pattern.captureNames >>= _)
        cases hcheck : arrow.template.check pattern.captureNames with
        | ok _ => exact List.nil_suffix
        | error e =>
            show PointsAt ctx s.rest e
            rw [hrest]
            exact pointsAt_check hcheck
  exact hread

end CompiledPattern

/-! ### Errors in a text -/

/-- The text can be cut at that position. -/
structure Cuttable (text : String) (position : Nat) : Prop where
  le : position ≤ text.utf8ByteSize
  boundary : (String.Pos.Raw.mk position).IsValid text

theorem Text.StandsAt.cuttable {text : String} {position : Nat} {rest : List Char}
    (h : StandsAt text.toList position rest) : Cuttable text position := by
  refine ⟨?_, h.isValid⟩
  obtain ⟨before, htext, rfl⟩ := h
  rw [utf8ByteSize_eq, htext, byteWidth_append]
  exact Nat.le_add_right _ _

/-- What the position of an error tells. -/
inductive Located (text : String) (e : CompileError) : Prop where
  /-- A token starts there. -/
  | token {tokens : List (Placed Token)} {token : Placed Token}
      (cut : Token.readAll text = .ok tokens) (mem : token ∈ tokens)
      (position : e.position = token.position)
  /-- The text is cut up to there, where a token is opened and broken off. -/
  | opening {tokens : List (Placed Token)} {c : Char} {after : List Char}
      (cut : Token.CutTo 0 text.toList tokens e.position (c :: after))
      (first : c = '"' ∨ c = '[' ∨ c = '\x7b') (broken : Token.take e.position c after = .error e)
  /-- The text is cut up to there, where a character stands that starts no token. -/
  | character {tokens : List (Placed Token)} {c : Char} {after : List Char}
      (cut : Token.CutTo 0 text.toList tokens e.position (c :: after)) (solid : isBlank c = false)
      (fault : e = .malformed (.unexpectedChar c) e.position)
  /-- The text ends there. -/
  | finish (position : e.position = text.utf8ByteSize)

namespace Located

variable {text : String}

theorem of_readAll_error (h : Token.readAll text = .error e) : Located text e := by
  obtain ⟨tokens, c, after, cut, solid, refused⟩ := Token.exists_cutTo_of_error text.toList h
  rcases (Token.of_take_error refused).2 with first | first | first | fault
  · exact .opening cut (.inl first) refused
  · exact .opening cut (.inr (.inl first)) refused
  · exact .opening cut (.inr (.inr first)) refused
  · exact .character cut solid fault

theorem of_pointsAt {maxBound : Nat} (cut : Token.readAll text = .ok tokens)
    (h : PointsAt ⟨byteWidth text.toList, maxBound⟩ tokens e) : Located text e := by
  rcases h with h | ⟨token, mem, h⟩
  · exact .finish (h.trans (utf8ByteSize_eq text).symm)
  · exact .token cut mem h

/-- **Something stands where an error is told, or the text ends there.** -/
theorem standsAt (h : Located text e) : ∃ rest, StandsAt text.toList e.position rest := by
  cases h with
  | @token tokens token cut mem position =>
      obtain ⟨before, c, after, -, htext, -, -, hposition⟩ :=
        Token.exists_begins_of_mem text.toList cut token mem
      exact ⟨c :: after, before, htext, by rw [position, hposition, Nat.zero_add]⟩
  | @opening tokens c after cut =>
      obtain ⟨place, hplace, hstands⟩ := cut.standsAt
      rw [Nat.zero_add] at hplace
      rw [hplace]
      exact ⟨c :: after, hstands⟩
  | @character tokens c after cut =>
      obtain ⟨place, hplace, hstands⟩ := cut.standsAt
      rw [Nat.zero_add] at hplace
      rw [hplace]
      exact ⟨c :: after, hstands⟩
  | finish position =>
      rw [position, utf8ByteSize_eq]
      exact ⟨[], .finish text.toList⟩

end Located

/-- **A pattern is refused where a token starts, at the character at fault, or at the end.** -/
theorem CompiledPattern.located {text : String} {settings : Settings}
    (h : CompiledPattern.read text settings = .error e) : Located text e := by
  rw [read_eq] at h
  cases cut : Token.readAll text with
  | error e' =>
      rw [cut] at h
      obtain rfl := Except.error.inj h
      exact .of_readAll_error cut
  | ok tokens =>
      rw [cut] at h
      cases hread : readTokens ⟨byteWidth text.toList, settings.maxBound⟩ tokens with
      | ok answer =>
          simp only [bind, Except.bind, hread, Except.map] at h
          cases h
      | error e' =>
          simp only [bind, Except.bind, hread, Except.map] at h
          obtain rfl := Except.error.inj h
          exact .of_pointsAt cut (pointsAt_readTokens hread)

/-- A template as well. -/
theorem Template.located {text : String} (h : Template.read text = .error e) : Located text e := by
  unfold Template.read at h
  cases cut : Token.readAll text with
  | error e' =>
      rw [cut] at h
      obtain rfl := Except.error.inj h
      exact .of_readAll_error cut
  | ok tokens =>
      rw [cut] at h
      let ctx : ReadContext := { finish := byteWidth text.toList, maxBound := 0 }
      have hpoints :
          Confined ctx tokens (fun _ => []) (.error e : Except CompileError Template) := by
        rw [← h]
        refine (Template.confined_readFrom ctx { rest := tokens }).bind fun ⟨template, s⟩ _ => ?_
        refine (s.confined_finish ctx).bind fun _ _ => ?_
        exact List.nil_suffix
      exact .of_pointsAt cut hpoints

end TreeRules
