/-
What is read is derived.

A reader that answers has read the pieces of a derivation, and answers with the pattern that the
derivation means.  Each reader is shown to do so by the readers that it calls, so the induction is
on the tokens that are left, as reading itself is.
-/
import TreeRules.Proofs.Pattern.Pieces
import TreeRules.Proofs.Pattern.Proper

namespace TreeRules

open TreeRules.Text

namespace Grammar

/-! ### Answers -/

/-- A reader answers with `a` and goes on from the state `s'`. -/
def Gives {α : Type} {P : α × ReadState → Prop} (x : Except CompileError { r // P r }) (a : α)
    (s' : ReadState) : Prop :=
  ∃ h, x = .ok ⟨(a, s'), h⟩

variable {α β : Type} {P : α × ReadState → Prop} {Q : β × ReadState → Prop}

theorem gives_bind {x : Except CompileError { r // P r }}
    {next : { r // P r } → Except CompileError { r // Q r }} {b : β} {s' : ReadState} :
    Gives (x >>= next) b s' ↔
      ∃ a s₁ h, x = .ok ⟨(a, s₁), h⟩ ∧ Gives (next ⟨(a, s₁), h⟩) b s' := by
  cases x with
  | error e =>
      constructor
      · rintro ⟨h, heq⟩
        exact absurd heq (by simp [bind, Except.bind])
      · rintro ⟨a, s₁, h, heq, -⟩
        exact absurd heq (by simp)
  | ok r =>
      obtain ⟨⟨a, s₁⟩, h⟩ := r
      constructor
      · intro hnext
        exact ⟨a, s₁, h, rfl, hnext⟩
      · rintro ⟨a', s₁', h', heq, hnext⟩
        cases heq
        exact hnext

theorem Gives.bind {x : Except CompileError { r // P r }}
    {next : { r // P r } → Except CompileError { r // Q r }} {a : α} {b : β} {s₁ s' : ReadState}
    (hx : Gives x a s₁) (hnext : ∀ h, Gives (next ⟨(a, s₁), h⟩) b s') :
    Gives (x >>= next) b s' := by
  obtain ⟨h, hx⟩ := hx
  exact gives_bind.mpr ⟨a, s₁, h, hx, hnext h⟩

theorem gives_ok {r : { r // P r }} {a : α} {s' : ReadState} :
    Gives (Except.ok r) a s' ↔ r.val = (a, s') := by
  obtain ⟨⟨a', s₁⟩, h⟩ := r
  constructor
  · rintro ⟨h', heq⟩
    cases heq
    rfl
  · intro heq
    cases heq
    exact ⟨h, rfl⟩

theorem not_gives_error {e : CompileError} {a : α} {s' : ReadState} :
    ¬ Gives (Except.error e : Except CompileError { r // P r }) a s' := by
  rintro ⟨h, heq⟩
  exact absurd heq (by simp)

/-! ### Marks -/

theorem readMarks_eq (tokens : List (Placed Token)) :
    ∃ marks : List (Placed Mark), (Pattern.readMarks tokens).1 = marks.map markStep ∧
      tokens = markTokens marks ++ (Pattern.readMarks tokens).2 := by
  fun_induction Pattern.readMarks tokens with
  | case1 => exact ⟨[], rfl, rfl⟩
  | case2 => exact ⟨[], rfl, rfl⟩
  | case3 token rest mark hmark steps rest' h ih =>
      obtain ⟨marks, hsteps, hrest⟩ := ih
      rw [h] at hsteps hrest
      obtain ⟨mark', htoken, rfl⟩ := exists_mark hmark
      refine ⟨⟨mark', token.position⟩ :: marks, ?_, ?_⟩
      · rw [List.map_cons, ← hsteps]
        rfl
      · rw [markTokens, List.map_cons, List.cons_append, Placed.map, htoken]
        exact congrArg _ hrest

theorem reads_markTokens {maxBound : Nat} {marks : List (Placed Mark)} {s s' : ReadState} :
    Reads maxBound ((markTokens marks).map .token) s s' ↔ Takes (markTokens marks) s s' := by
  refine reads_tokens fun token htoken name => ?_
  obtain ⟨mark, -, rfl⟩ := List.mem_map.mp htoken
  exact mark_ne_reference mark.value name

/-! ### Quantifiers -/

theorem quantifierFault?_eq_none {ctx : ReadContext} {body : Pattern} {min : Nat}
    {max : Option Nat} :
    Pattern.quantifierFault? ctx body min max = none ↔
      (∀ bound, max = some bound → min ≤ bound) ∧ max.getD min ≤ ctx.maxBound ∧
        (max = none → body.canBeEmpty = false) := by
  unfold Pattern.quantifierFault?
  cases max with
  | none =>
      by_cases hmin : ctx.maxBound < min
      · simp [hmin, Nat.not_le_of_lt hmin]
      · simp [hmin, Nat.le_of_not_lt hmin]
  | some bound =>
      by_cases hle : bound < min
      · simp [hle, Nat.not_le_of_lt hle]
      · by_cases hbound : ctx.maxBound < bound
        · simp [hle, hbound]
        · simp [hle, hbound, Nat.le_of_not_lt]

/-- A lazy repetition is compiled to as many instructions as a greedy one. -/
theorem codeLength_lazy (body : Pattern) (min : Nat) (max : Option Nat) (greedy greedy' : Bool) :
    (Pattern.repetition body min max greedy).codeLength =
      (Pattern.repetition body min max greedy').codeLength := by
  cases max <;> rw [Pattern.codeLength, Pattern.codeLength]

/-- A repetition is allowed if reading finds no fault with it. -/
theorem allowed_iff {ctx : ReadContext} {body : Pattern} {min : Nat} {max : Option Nat}
    (greedy : Bool) :
    Allowed ctx.maxBound body min max ↔
      Pattern.quantifierFault? ctx body min max = none ∧
        (Pattern.repetition body min max greedy).codeLength ≤ maxCodeLength := by
  rw [quantifierFault?_eq_none]
  constructor
  · rintro ⟨hle, hmin, hmax, hconsumes, hshort⟩
    refine ⟨⟨hle, ?_, hconsumes⟩, hshort greedy⟩
    cases max with
    | none => exact hmin
    | some bound => exact hmax bound rfl
  · rintro ⟨⟨hle, hmax, hconsumes⟩, hshort⟩
    refine ⟨hle, ?_, ?_, hconsumes, fun greedy' => ?_⟩
    · cases max with
      | none => exact hmax
      | some bound => exact Nat.le_trans (hle bound rfl) hmax
    · rintro bound rfl
      exact hmax
    · rw [codeLength_lazy body min max greedy' greedy]
      exact hshort

theorem reads_timesPieces {maxBound : Nat} {body : Pattern} {quantifier : Placed Quantifier}
    {lazily : Option Nat} {s s' : ReadState} :
    Reads maxBound (timesPieces body (some ⟨quantifier, lazily⟩)) s s' ↔
      Allowed maxBound body quantifier.value.min quantifier.value.max ∧
        Takes (quantifier.map Quantifier.token :: lazyTokens lazily) s s' := by
  have hlazily : ∀ token ∈ lazyTokens lazily, ∀ name, token.value ≠ .reference name := by
    intro token htoken name
    obtain ⟨position, -, rfl⟩ := List.mem_map.mp htoken
    exact Token.noConfusion
  constructor
  · rintro ⟨rest, hrest, -, hallowed, h⟩
    exact ⟨hallowed, .cons hrest ((reads_tokens hlazily).mp h)⟩
  · rintro ⟨hallowed, hrest, hclosed⟩
    exact ⟨_, hrest, fun name h => absurd h (quantifier_ne_reference _ name), hallowed,
      (reads_tokens hlazily).mpr ⟨rfl, hclosed⟩⟩

/-- What comes after a quantifier starts with a question mark or does not. -/
theorem exists_lazily (rest : List (Placed Token)) :
    ∃ lazily : Option Nat,
      (rest.head?.map (·.value) == some .question) = lazily.isSome ∧
        rest = lazyTokens lazily ++
          if (rest.head?.map (·.value) == some .question) = true then rest.tail else rest := by
  by_cases h : rest.head?.map (·.value) = some .question
  · obtain ⟨⟨_, position⟩, hhead, rfl⟩ := Option.map_eq_some_iff.mp h
    obtain ⟨tail, rfl⟩ := List.head?_eq_some_iff.mp hhead
    exact ⟨some position, rfl, rfl⟩
  · have hne : (rest.head?.map (·.value) == some .question) = false := beq_false_of_ne h
    exact ⟨none, hne, by rw [hne]; rfl⟩

/-- Reading a quantifier reads nothing, or a quantifier that is allowed. -/
theorem of_readQuantifier {ctx : ReadContext} {body pattern : Pattern} {s s' : ReadState}
    (h : Gives (Pattern.readQuantifier ctx body s) pattern s') :
    ∃ times : Option Times, Reads ctx.maxBound (timesPieces body times) s s' ∧
      timesPattern body times = pattern := by
  unfold Pattern.readQuantifier at h
  split at h
  · cases gives_ok.mp h
    exact ⟨none, rfl, rfl⟩
  · rename_i token rest hrest
    split at h
    · cases gives_ok.mp h
      exact ⟨none, rfl, rfl⟩
    · rename_i min max hquantifier
      extract_lets lazily after at h
      split at h
      · exact absurd h not_gives_error
      · rename_i hfault
        split at h
        · exact absurd h not_gives_error
        · split at h
          · exact absurd h not_gives_error
          · rename_i hlength
            obtain ⟨hpattern, hs'⟩ :
                Pattern.repetition body min max (!lazily) = pattern ∧ after = s' :=
              Prod.mk.inj (gives_ok.mp h)
            have hallowed : Allowed ctx.maxBound body min max :=
              (allowed_iff (!lazily)).mpr ⟨hfault, Nat.le_of_not_lt hlength⟩
            obtain ⟨quantifier, htoken, rfl, rfl⟩ := exists_quantifier hquantifier
            obtain ⟨position, hposition, hafter⟩ := exists_lazily rest
            have hlazily : lazily = position.isSome := hposition
            refine ⟨some ⟨⟨quantifier, token.position⟩, position⟩, ?_, ?_⟩
            · rw [← hs']
              refine reads_timesPieces.mpr ⟨hallowed, ?_, rfl⟩
              rw [hrest, Placed.map, htoken, List.cons_append]
              exact congrArg _ hafter
            · rw [← hpattern, hlazily]
              cases position <;> rfl

/-! ### The readers -/

/-- Marks are read between what was read before them and what is read after them. -/
theorem exists_marks {maxBound : Nat} {pieces pieces' : List Piece} {s s₁ s' : ReadState}
    (h : Reads maxBound pieces s s₁)
    (h' : Reads maxBound pieces' { s₁ with rest := (Pattern.readMarks s₁.rest).2 } s') :
    ∃ marks : List (Placed Mark), (Pattern.readMarks s₁.rest).1 = marks.map markStep ∧
      Reads maxBound (pieces ++ (markTokens marks).map .token ++ pieces') s s' := by
  obtain ⟨marks, hmarks, hrest⟩ := readMarks_eq s₁.rest
  refine ⟨marks, hmarks, reads_append.mpr ⟨_, reads_append.mpr ⟨s₁, h, ?_⟩, h'⟩⟩
  exact reads_markTokens.mpr ⟨hrest, rfl⟩

mutual

theorem of_readBranches (ctx : ReadContext) (s : ReadState) {pattern : Pattern} {s' : ReadState}
    (h : Gives (Pattern.readBranches ctx s) pattern s') :
    ∃ branches : Branches, Reads ctx.maxBound branches.pieces s s' ∧
      branches.pattern = pattern := by
  rw [Pattern.readBranches] at h
  obtain ⟨first, s₁, h₁, hfirst, h⟩ := gives_bind.mp h
  obtain ⟨others, s₂, h₂, hothers, h⟩ := gives_bind.mp h
  obtain ⟨first', hreads, rfl⟩ := of_readSequence ctx s ⟨h₁, hfirst⟩
  obtain ⟨others', hreads', rfl⟩ := of_readMoreBranches ctx s₁ ⟨h₂, hothers⟩
  obtain ⟨rfl, rfl⟩ := Prod.mk.inj (gives_ok.mp h)
  refine ⟨.mk first' others', ?_, by rw [Branches.pattern]⟩
  rw [Branches.pieces]
  exact reads_append.mpr ⟨s₁, hreads, hreads'⟩
  termination_by (s.rest.length, 4)

theorem of_readMoreBranches (ctx : ReadContext) (s : ReadState) {patterns : List Pattern}
    {s' : ReadState} (h : Gives (Pattern.readMoreBranches ctx s) patterns s') :
    ∃ others : MoreBranches, Reads ctx.maxBound others.pieces s s' ∧
      others.patterns = patterns := by
  rw [Pattern.readMoreBranches] at h
  split at h
  · rename_i bar rest hrest
    have hlt := length_lt_of_eq_cons hrest
    obtain ⟨branch, s₁, h₁, hbranch, h⟩ := gives_bind.mp h
    have hlt₁ : s₁.rest.length < s.rest.length := Nat.lt_trans h₁ hlt
    obtain ⟨branches, s₂, h₂, hbranches, h⟩ := gives_bind.mp h
    obtain ⟨branch', hreads, rfl⟩ := of_readSequence ctx _ ⟨h₁, hbranch⟩
    obtain ⟨others', hreads', rfl⟩ := of_readMoreBranches ctx s₁ ⟨h₂, hbranches⟩
    obtain ⟨rfl, rfl⟩ := Prod.mk.inj (gives_ok.mp h)
    refine ⟨.cons bar branch' others', ?_, by rw [MoreBranches.patterns]⟩
    rw [MoreBranches.pieces]
    exact ⟨rest, hrest, fun _ => Token.noConfusion, reads_append.mpr ⟨s₁, hreads, hreads'⟩⟩
  · obtain ⟨rfl, rfl⟩ := Prod.mk.inj (gives_ok.mp h)
    exact ⟨.nil, rfl, rfl⟩
  termination_by (s.rest.length, 5)
  decreasing_by all_goals exact Prod.Lex.left _ _ (by assumption)

theorem of_readSequence (ctx : ReadContext) (s : ReadState) {pattern : Pattern} {s' : ReadState}
    (h : Gives (Pattern.readSequence ctx s) pattern s') :
    ∃ sequence : Sequence, Reads ctx.maxBound sequence.pieces s s' ∧
      sequence.pattern = pattern := by
  rw [Pattern.readSequence] at h
  obtain ⟨first, s₁, h₁, hfirst, h⟩ := gives_bind.mp h
  have hlt : (Pattern.readMarks s₁.rest).2.length < s.rest.length :=
    Nat.lt_of_le_of_lt (Pattern.length_readMarks s₁.rest) h₁
  obtain ⟨steps, s₂, h₂, hsteps, h⟩ := gives_bind.mp h
  obtain ⟨first', hreads, rfl⟩ := of_readElement ctx s ⟨h₁, hfirst⟩
  obtain ⟨steps', hreads', rfl⟩ := of_readMoreSteps ctx _ ⟨h₂, hsteps⟩
  obtain ⟨marks, hmarks, hall⟩ := exists_marks hreads hreads'
  obtain ⟨rfl, rfl⟩ := Prod.mk.inj (gives_ok.mp h)
  refine ⟨.mk first' marks steps', ?_, ?_⟩
  · rw [Sequence.pieces]
    exact hall
  · rw [Sequence.pattern, ← hmarks]
  termination_by (s.rest.length, 3)
  decreasing_by
  · exact Prod.Lex.right _ (by decide)
  · exact Prod.Lex.left _ _ hlt

theorem of_readMoreSteps (ctx : ReadContext) (s : ReadState)
    {list : List (Option Axis × Pattern)} {s' : ReadState}
    (h : Gives (Pattern.readMoreSteps ctx s) list s') :
    ∃ steps : MoreSteps, Reads ctx.maxBound steps.pieces s s' ∧ steps.steps = list := by
  rw [Pattern.readMoreSteps] at h
  split at h
  · obtain ⟨rfl, rfl⟩ := Prod.mk.inj (gives_ok.mp h)
    exact ⟨.nil, rfl, rfl⟩
  · rename_i token rest hrest
    have hlt := length_lt_of_eq_cons hrest
    split at h
    · rename_i axis haxis
      obtain ⟨step, s₁, h₁, hstep, h⟩ := gives_bind.mp h
      have hlt₁ : (Pattern.readMarks s₁.rest).2.length < s.rest.length :=
        Nat.lt_of_le_of_lt (Pattern.length_readMarks s₁.rest) (Nat.lt_trans h₁ hlt)
      obtain ⟨steps, s₂, h₂, hsteps, h⟩ := gives_bind.mp h
      obtain ⟨step', hreads, rfl⟩ := of_readElement ctx _ ⟨h₁, hstep⟩
      obtain ⟨steps', hreads', rfl⟩ := of_readMoreSteps ctx _ ⟨h₂, hsteps⟩
      obtain ⟨marks, hmarks, hall⟩ := exists_marks hreads hreads'
      obtain ⟨rfl, rfl⟩ := Prod.mk.inj (gives_ok.mp h)
      refine ⟨.cons (some ⟨axis, token.position⟩) step' marks steps', ?_, ?_⟩
      · rw [MoreSteps.pieces]
        refine ⟨rest, ?_, fun name h => absurd h (axisToken_ne_reference axis name), hall⟩
        show s.rest = ⟨axisToken axis, token.position⟩ :: rest
        rw [hrest, axisToken_of_axis? haxis]
      · rw [MoreSteps.steps, ← hmarks]
        rfl
    · split at h
      · obtain ⟨step, s₁, h₁, hstep, h⟩ := gives_bind.mp h
        have hlt₁ : (Pattern.readMarks s₁.rest).2.length < s.rest.length :=
          Nat.lt_of_le_of_lt (Pattern.length_readMarks s₁.rest) h₁
        obtain ⟨steps, s₂, h₂, hsteps, h⟩ := gives_bind.mp h
        obtain ⟨step', hreads, rfl⟩ := of_readElement ctx s ⟨h₁, hstep⟩
        obtain ⟨steps', hreads', rfl⟩ := of_readMoreSteps ctx _ ⟨h₂, hsteps⟩
        obtain ⟨marks, hmarks, hall⟩ := exists_marks hreads hreads'
        obtain ⟨rfl, rfl⟩ := Prod.mk.inj (gives_ok.mp h)
        refine ⟨.cons none step' marks steps', ?_, ?_⟩
        · rw [MoreSteps.pieces]
          exact hall
        · rw [MoreSteps.steps, ← hmarks]
          rfl
      · obtain ⟨rfl, rfl⟩ := Prod.mk.inj (gives_ok.mp h)
        exact ⟨.nil, rfl, rfl⟩
  termination_by (s.rest.length, 3)
  decreasing_by
  · exact Prod.Lex.left _ _ hlt
  · exact Prod.Lex.left _ _ hlt₁
  · exact Prod.Lex.right _ (by decide)
  · exact Prod.Lex.left _ _ hlt₁

theorem of_readElement (ctx : ReadContext) (s : ReadState) {pattern : Pattern} {s' : ReadState}
    (h : Gives (Pattern.readElement ctx s) pattern s') :
    ∃ element : Element, Reads ctx.maxBound element.pieces s s' ∧ element.pattern = pattern := by
  rw [Pattern.readElement] at h
  split at h
  · rename_i name position colon rest hrest
    have hlt := Nat.lt_of_succ_lt (length_lt_of_eq_cons hrest)
    obtain ⟨body, s₁, h₁, hbody, h⟩ := gives_bind.mp h
    obtain ⟨body', hreads, rfl⟩ := of_readElement ctx _ ⟨h₁, hbody⟩
    obtain ⟨rfl, rfl⟩ := Prod.mk.inj (gives_ok.mp h)
    refine ⟨.capture ⟨name, position⟩ colon body', ?_, by rw [Element.pattern]⟩
    rw [Element.pieces]
    exact ⟨_, hrest, fun _ => Token.noConfusion, rest, rfl, fun _ => Token.noConfusion,
      reads_append.mpr ⟨s₁, hreads, rfl⟩⟩
  · obtain ⟨body, s₁, h₁, hbody, h⟩ := gives_bind.mp h
    obtain ⟨element, s₂, h₂, helement, h⟩ := gives_bind.mp h
    obtain ⟨body', hreads, rfl⟩ := of_readPrimary ctx s ⟨h₁, hbody⟩
    obtain ⟨rfl, rfl⟩ := Prod.mk.inj (gives_ok.mp h)
    obtain ⟨times, hreads', rfl⟩ := of_readQuantifier ⟨h₂, helement⟩
    refine ⟨.plain body' times, ?_, by rw [Element.pattern]⟩
    rw [Element.pieces]
    exact reads_append.mpr ⟨s₁, hreads, hreads'⟩
  termination_by (s.rest.length, 2)
  decreasing_by
  · exact Prod.Lex.left _ _ hlt
  · exact Prod.Lex.right _ (by decide)

theorem of_readPrimary (ctx : ReadContext) (s : ReadState) {pattern : Pattern} {s' : ReadState}
    (h : Gives (Pattern.readPrimary ctx s) pattern s') :
    ∃ primary : Primary, Reads ctx.maxBound primary.pieces s s' ∧ primary.pattern = pattern := by
  rw [Pattern.readPrimary] at h
  split at h
  · rename_i text position rest hrest
    obtain ⟨rfl, rfl⟩ := Prod.mk.inj (gives_ok.mp h)
    exact ⟨.word ⟨text, position⟩, ⟨rest, hrest, fun _ => Token.noConfusion, rfl⟩, rfl⟩
  · rename_i text position rest hrest
    obtain ⟨rfl, rfl⟩ := Prod.mk.inj (gives_ok.mp h)
    exact ⟨.quoted ⟨text, position⟩, ⟨rest, hrest, fun _ => Token.noConfusion, rfl⟩, rfl⟩
  · rename_i position rest hrest
    obtain ⟨rfl, rfl⟩ := Prod.mk.inj (gives_ok.mp h)
    exact ⟨.any position, ⟨rest, hrest, fun _ => Token.noConfusion, rfl⟩, rfl⟩
  · rename_i name position rest hrest
    obtain ⟨rfl, rfl⟩ := Prod.mk.inj (gives_ok.mp h)
    exact ⟨.predicate ⟨name, position⟩, ⟨rest, hrest, fun _ => Token.noConfusion, rfl⟩, rfl⟩
  · rename_i name position rest hrest
    split at h
    · rename_i hclosed
      obtain ⟨rfl, rfl⟩ := Prod.mk.inj (gives_ok.mp h)
      refine ⟨.reference ⟨name, position⟩, ⟨rest, hrest, fun name' hname => ?_, rfl⟩, rfl⟩
      obtain rfl := Token.reference.inj hname
      exact List.contains_iff_mem.mp hclosed
    · exact absurd h not_gives_error
  · rename_i opening rest hrest
    have hlt := length_lt_of_eq_cons hrest
    obtain ⟨inner, s₁, h₁, hinner, h⟩ := gives_bind.mp h
    obtain ⟨inner', hreads, rfl⟩ := of_readBranches ctx _ ⟨h₁, hinner⟩
    dsimp only at h
    split at h
    · rename_i closing rest₂ hrest₂
      obtain ⟨rfl, rfl⟩ := Prod.mk.inj (gives_ok.mp h)
      refine ⟨.group opening inner' closing, ?_, by rw [Primary.pattern]⟩
      rw [Primary.pieces]
      exact ⟨rest, hrest, fun _ => Token.noConfusion,
        reads_append.mpr ⟨s₁, hreads, rest₂, hrest₂, fun _ => Token.noConfusion, rfl⟩⟩
    · exact absurd h not_gives_error
  · exact absurd h not_gives_error
  termination_by (s.rest.length, 1)
  decreasing_by exact Prod.Lex.left _ _ hlt

end

end Grammar

end TreeRules
