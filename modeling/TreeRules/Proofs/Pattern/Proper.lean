/-
What reading promises of a pattern.

Reading refuses to repeat without bound what may match without consuming a node, and makes no
alternation of no branches.  `Proper` says so of a whole pattern.  Each reader is shown to keep it
by the readers that it calls, so the induction is on the tokens that are left, as reading itself is.
-/
import TreeRules.Pattern.Compile

namespace TreeRules

open TreeRules.Text

namespace Pattern

mutual

/-- No body that is repeated without bound can be empty, and every alternation has a branch. -/
def Proper : Pattern → Prop
  | test _ | anchor _ | parent => True
  | sequence steps => ProperSteps steps
  | alternation branches => branches ≠ [] ∧ ProperBranches branches
  | repetition body _ max _ => (max = none → body.canBeEmpty = false) ∧ Proper body
  | capture _ body => Proper body

/-- All steps are proper. -/
def ProperSteps : List (Option Axis × Pattern) → Prop
  | [] => True
  | (_, step) :: steps => Proper step ∧ ProperSteps steps

/-- All branches are proper. -/
def ProperBranches : List Pattern → Prop
  | [] => True
  | branch :: branches => Proper branch ∧ ProperBranches branches

end

/-! ### Putting patterns together -/

theorem properSteps_append {steps steps' : List (Option Axis × Pattern)} (h : ProperSteps steps)
    (h' : ProperSteps steps') : ProperSteps (steps ++ steps') := by
  induction steps with
  | nil => exact h'
  | cons step steps ih =>
      rw [ProperSteps] at h
      rw [List.cons_append, ProperSteps]
      exact ⟨h.1, ih h.2⟩

theorem proper_ofSteps {steps : List (Option Axis × Pattern)} (h : ProperSteps steps) :
    (ofSteps steps).Proper := by
  unfold ofSteps
  split
  · rw [ProperSteps] at h
    exact h.1
  · rw [Proper]
    exact h

theorem proper_ofBranches {branch : Pattern} {branches : List Pattern} (h : branch.Proper)
    (h' : ProperBranches branches) : (ofBranches (branch :: branches)).Proper := by
  unfold ofBranches
  split
  · rename_i heq
    rw [List.cons.injEq] at heq
    exact heq.1 ▸ h
  · rw [Proper, ProperBranches]
    exact ⟨List.cons_ne_nil branch branches, h, h'⟩

theorem proper_mark {token : Token} {mark : Pattern} (h : token.mark? = some mark) :
    mark.Proper := by
  unfold Token.mark? at h
  split at h
  · obtain rfl := Option.some.inj h
    rw [Proper]
    trivial
  · obtain rfl := Option.some.inj h
    rw [Proper]
    trivial
  · exact absurd h (by simp)

theorem proper_readMarks (tokens : List (Placed Token)) : ProperSteps (readMarks tokens).1 := by
  fun_induction readMarks tokens with
  | case1 => rw [ProperSteps]; trivial
  | case2 => rw [ProperSteps]; trivial
  | case3 token rest mark hmark marks rest' h ih =>
      rw [h] at ih
      rw [ProperSteps]
      exact ⟨proper_mark hmark, ih⟩

theorem canBeEmpty_of_no_fault {ctx : ReadContext} {body : Pattern} {min : Nat}
    (h : quantifierFault? ctx body min none = none) : body.canBeEmpty = false := by
  cases hempty : body.canBeEmpty with
  | false => rfl
  | true =>
      unfold quantifierFault? at h
      rw [hempty] at h
      revert h
      simp only [Option.any_none, Option.isNone_none, Bool.and_self]
      split
      · simp
      · split <;> simp

theorem proper_readQuantifier {ctx : ReadContext} {body : Pattern} {s : ReadState}
    {r : NotLonger s Pattern} (hbody : body.Proper) (h : readQuantifier ctx body s = .ok r) :
    r.val.1.Proper := by
  unfold readQuantifier at h
  split at h
  · obtain rfl := Except.ok.inj h
    exact hbody
  · split at h
    · obtain rfl := Except.ok.inj h
      exact hbody
    · rename_i min max _
      extract_lets lazily after at h
      split at h
      · exact absurd h (by simp)
      · rename_i hfault
        split at h
        · exact absurd h (by simp)
        · split at h
          · exact absurd h (by simp)
          · obtain rfl := Except.ok.inj h
            rw [Proper]
            refine ⟨fun hmax => ?_, hbody⟩
            subst hmax
            exact canBeEmpty_of_no_fault hfault

/-! ### The readers -/

/-- A reader that goes on after another one has succeeded with it. -/
theorem ok_of_bind {ε α β : Type} {x : Except ε α} {next : α → Except ε β} {r : β}
    (h : x >>= next = .ok r) : ∃ a, x = .ok a ∧ next a = .ok r := by
  cases x with
  | error e => exact absurd h (by simp [bind, Except.bind])
  | ok a => exact ⟨a, rfl, h⟩

mutual

theorem proper_readBranches (ctx : ReadContext) (s : ReadState) {r : Shorter s Pattern}
    (h : readBranches ctx s = .ok r) : r.val.1.Proper := by
  rw [readBranches] at h
  obtain ⟨⟨⟨first, s₁⟩, h₁⟩, hfirst, h⟩ := ok_of_bind h
  obtain ⟨⟨⟨others, s₂⟩, h₂⟩, hothers, h⟩ := ok_of_bind h
  obtain rfl := Except.ok.inj h
  exact proper_ofBranches (proper_readSequence ctx s hfirst) (proper_readMoreBranches ctx s₁ hothers)
  termination_by (s.rest.length, 4)

theorem proper_readMoreBranches (ctx : ReadContext) (s : ReadState)
    {r : NotLonger s (List Pattern)} (h : readMoreBranches ctx s = .ok r) :
    ProperBranches r.val.1 := by
  rw [readMoreBranches] at h
  split at h
  · rename_i rest hrest
    have hlt := length_lt_of_eq_cons hrest
    obtain ⟨⟨⟨branch, s₁⟩, h₁⟩, hbranch, h⟩ := ok_of_bind h
    have hlt₁ : s₁.rest.length < s.rest.length := Nat.lt_trans h₁ hlt
    obtain ⟨⟨⟨branches, s₂⟩, h₂⟩, hbranches, h⟩ := ok_of_bind h
    have first := proper_readSequence ctx _ hbranch
    have others := proper_readMoreBranches ctx s₁ hbranches
    obtain rfl := Except.ok.inj h
    rw [ProperBranches]
    exact ⟨first, others⟩
  · obtain rfl := Except.ok.inj h
    rw [ProperBranches]
    trivial
  termination_by (s.rest.length, 5)
  decreasing_by all_goals exact Prod.Lex.left _ _ (by assumption)

theorem proper_readSequence (ctx : ReadContext) (s : ReadState) {r : Shorter s Pattern}
    (h : readSequence ctx s = .ok r) : r.val.1.Proper := by
  rw [readSequence] at h
  obtain ⟨⟨⟨first, s₁⟩, h₁⟩, hfirst, h⟩ := ok_of_bind h
  have hlt := Nat.lt_of_le_of_lt (length_readMarks s₁.rest) h₁
  obtain ⟨⟨⟨steps, s₂⟩, h₂⟩, hsteps, h⟩ := ok_of_bind h
  have head := proper_readElement ctx s hfirst
  have tail := proper_readMoreSteps ctx _ hsteps
  obtain rfl := Except.ok.inj h
  refine proper_ofSteps ?_
  rw [List.cons_append, ProperSteps]
  exact ⟨head, properSteps_append (proper_readMarks s₁.rest) tail⟩
  termination_by (s.rest.length, 3)
  decreasing_by
  · exact Prod.Lex.right _ (by decide)
  · exact Prod.Lex.left _ _ hlt

theorem proper_readMoreSteps (ctx : ReadContext) (s : ReadState)
    {r : NotLonger s (List (Option Axis × Pattern))} (h : readMoreSteps ctx s = .ok r) :
    ProperSteps r.val.1 := by
  rw [readMoreSteps] at h
  split at h
  · obtain rfl := Except.ok.inj h
    rw [ProperSteps]
    trivial
  · rename_i token rest hrest
    have hlt := length_lt_of_eq_cons hrest
    split at h
    · obtain ⟨⟨⟨step, s₁⟩, h₁⟩, hstep, h⟩ := ok_of_bind h
      have hlt₁ : (readMarks s₁.rest).2.length < s.rest.length :=
        Nat.lt_of_le_of_lt (length_readMarks s₁.rest) (Nat.lt_trans h₁ hlt)
      obtain ⟨⟨⟨steps, s₂⟩, h₂⟩, hsteps, h⟩ := ok_of_bind h
      have head := proper_readElement ctx _ hstep
      have tail := proper_readMoreSteps ctx _ hsteps
      obtain rfl := Except.ok.inj h
      rw [List.cons_append, ProperSteps]
      exact ⟨head, properSteps_append (proper_readMarks s₁.rest) tail⟩
    · split at h
      · obtain ⟨⟨⟨step, s₁⟩, h₁⟩, hstep, h⟩ := ok_of_bind h
        have hlt₁ : (readMarks s₁.rest).2.length < s.rest.length :=
          Nat.lt_of_le_of_lt (length_readMarks s₁.rest) h₁
        obtain ⟨⟨⟨steps, s₂⟩, h₂⟩, hsteps, h⟩ := ok_of_bind h
        have head := proper_readElement ctx s hstep
        have tail := proper_readMoreSteps ctx _ hsteps
        obtain rfl := Except.ok.inj h
        rw [List.cons_append, ProperSteps]
        exact ⟨head, properSteps_append (proper_readMarks s₁.rest) tail⟩
      · obtain rfl := Except.ok.inj h
        rw [ProperSteps]
        trivial
  termination_by (s.rest.length, 3)
  decreasing_by
  · exact Prod.Lex.left _ _ hlt
  · exact Prod.Lex.left _ _ hlt₁
  · exact Prod.Lex.right _ (by decide)
  · exact Prod.Lex.left _ _ hlt₁

theorem proper_readElement (ctx : ReadContext) (s : ReadState) {r : Shorter s Pattern}
    (h : readElement ctx s = .ok r) : r.val.1.Proper := by
  rw [readElement] at h
  split at h
  · rename_i rest hrest
    have hlt := Nat.lt_of_succ_lt (length_lt_of_eq_cons hrest)
    obtain ⟨⟨⟨body, s₁⟩, h₁⟩, hbody, h⟩ := ok_of_bind h
    have inner := proper_readElement ctx _ hbody
    obtain rfl := Except.ok.inj h
    rw [Proper]
    exact inner
  · obtain ⟨⟨⟨body, s₁⟩, h₁⟩, hbody, h⟩ := ok_of_bind h
    obtain ⟨⟨⟨element, s₂⟩, h₂⟩, helement, h⟩ := ok_of_bind h
    have inner := proper_readPrimary ctx s hbody
    obtain rfl := Except.ok.inj h
    exact proper_readQuantifier inner helement
  termination_by (s.rest.length, 2)
  decreasing_by
  · exact Prod.Lex.left _ _ hlt
  · exact Prod.Lex.right _ (by decide)

theorem proper_readPrimary (ctx : ReadContext) (s : ReadState) {r : Shorter s Pattern}
    (h : readPrimary ctx s = .ok r) : r.val.1.Proper := by
  rw [readPrimary] at h
  split at h
  · obtain rfl := Except.ok.inj h
    rw [Proper]
    trivial
  · obtain rfl := Except.ok.inj h
    rw [Proper]
    trivial
  · obtain rfl := Except.ok.inj h
    rw [Proper]
    trivial
  · obtain rfl := Except.ok.inj h
    rw [Proper]
    trivial
  · split at h
    · obtain rfl := Except.ok.inj h
      rw [Proper]
      trivial
    · exact absurd h (by simp)
  · rename_i rest hrest
    have hlt := length_lt_of_eq_cons hrest
    obtain ⟨⟨⟨inner, s₁⟩, h₁⟩, hinner, h⟩ := ok_of_bind h
    have within := proper_readBranches ctx _ hinner
    dsimp only at h
    split at h
    · obtain rfl := Except.ok.inj h
      exact within
    · exact absurd h (by simp [throw, throwThe, MonadExceptOf.throw])
  · exact absurd h (by simp)
  termination_by (s.rest.length, 1)
  decreasing_by exact Prod.Lex.left _ _ hlt

end

theorem proper_readPattern {ctx : ReadContext} {tokens : List (Placed Token)}
    {r : Pattern × ReadState} (h : readPattern ctx tokens = .ok r) : r.1.Proper := by
  unfold readPattern at h
  split at h
  · obtain ⟨a, ha, h⟩ := ok_of_bind h
    obtain rfl := Except.ok.inj h
    exact proper_readBranches ctx _ ha
  · obtain ⟨a, ha, h⟩ := ok_of_bind h
    obtain rfl := Except.ok.inj h
    have body := proper_readBranches ctx _ ha
    simp only [Proper, ProperSteps, true_and, and_true]
    exact body
  · obtain ⟨a, ha, h⟩ := ok_of_bind h
    obtain rfl := Except.ok.inj h
    exact proper_readBranches ctx _ ha

end Pattern

namespace CompiledPattern

/-- **A pattern that has been read is proper, and holds the program that it compiles to.** -/
theorem of_read {text : String} {settings : Settings} {p : CompiledPattern}
    (h : read text settings = .ok p) : p.pattern.Proper ∧ p.program = p.pattern.compile := by
  unfold read at h
  obtain ⟨tokens, -, h⟩ := Pattern.ok_of_bind h
  obtain ⟨⟨pattern, s⟩, hpattern, h⟩ := Pattern.ok_of_bind h
  obtain ⟨⟨template, s⟩, -, h⟩ := Pattern.ok_of_bind h
  obtain ⟨-, -, h⟩ := Pattern.ok_of_bind h
  have proper := Pattern.proper_readPattern hpattern
  dsimp only at h
  split at h
  · obtain ⟨-, -, h⟩ := Pattern.ok_of_bind h
    obtain rfl := Except.ok.inj h
    exact ⟨proper, rfl⟩
  · obtain rfl := Except.ok.inj h
    exact ⟨proper, rfl⟩

end CompiledPattern

end TreeRules
