/-
The grammar of parenthesised text, and what reading makes of it.

    node := value ['(' node* ')']

`Spells` is that grammar over tokens.  Reading keeps only the child lists that are still open, so
`Reached` says for each state what the tokens read so far must look like.  Three facts come of it.

  * When reading ends well, the tokens spell the tree that it answers with.
  * As long as it goes on, the tokens read so far can be gone on with to the tokens of a tree.
  * Tokens that spell a tree are read from any state that can take a node.  So a token at which
    reading stops cannot be gone on from.

A fault is therefore the first token after which no tree is possible, and where there is no such
token and no tree either, a child list is open at the end.
-/
import Mathlib
import TreeRules.ValueTree.Parenthesised

namespace TreeRules.ValueTree

open TreeRules.Text

mutual

/-- The tokens spell the tree. -/
inductive Spells : List ParenToken → ValueTree → Prop where
  | leaf (text : String) : Spells [.value text] (.node text [])
  | branch (text : String) {tokens : List ParenToken} {trees : List ValueTree}
      (children : SpellsAll tokens trees) :
      Spells (.value text :: .openParen :: (tokens ++ [.closeParen])) (.node text trees)

/-- The tokens spell the trees, one after another. -/
inductive SpellsAll : List ParenToken → List ValueTree → Prop where
  | nil : SpellsAll [] []
  | cons {tokens more : List ParenToken} {tree : ValueTree} {trees : List ValueTree}
      (first : Spells tokens tree) (rest : SpellsAll more trees) :
      SpellsAll (tokens ++ more) (tree :: trees)

end

/-- Some tokens can follow these such that they spell a tree. -/
def Viable (tokens : List ParenToken) : Prop := ∃ more tree, Spells (tokens ++ more) tree

/-- The same, and at least one token has to follow. -/
def ProperPrefix (tokens : List ParenToken) : Prop :=
  ∃ more tree, more ≠ [] ∧ Spells (tokens ++ more) tree

/-- What the parentheses that are open behind a token are, when they are `positions` before it. -/
def bracket (positions : List Nat) (token : Placed ParenToken) : List Nat :=
  match token.value with
  | .openParen => token.position :: positions
  | .closeParen => positions.tail
  | .value _ => positions

/-- Where the parentheses stand that are open behind the tokens, the innermost first. -/
def openParens (tokens : List (Placed ParenToken)) : List Nat := tokens.foldl bracket []

/-- The error that the token may not stand where it does. -/
def misplaced (token : Placed ParenToken) : FormatError :=
  match token.value with
  | .value _ => .secondRoot token.position
  | .openParen => .unexpected .openParen token.position
  | .closeParen => .unexpected .closeParen token.position

/-- What is wrong with tokens that spell no tree. -/
inductive Fault (tokens : List (Placed ParenToken)) : FormatError → Prop where
  /-- There is no token. -/
  | empty (eq_nil : tokens = []) : Fault tokens .empty
  /-- Tokens are missing at the end; the innermost parenthesis that is open stands at `position`. -/
  | unclosed {position : Nat} (ne_nil : tokens ≠ [])
      (unfinished : ProperPrefix (tokens.map (·.value)))
      (noTree : ∀ tree, ¬ Spells (tokens.map (·.value)) tree)
      (innermost : (openParens tokens).head? = some position) : Fault tokens (.unclosed position)
  /-- The tokens before this one can be gone on with, but not those up to it. -/
  | misplaced {before after : List (Placed ParenToken)} {token : Placed ParenToken}
      (split : tokens = before ++ token :: after) (viable : Viable (before.map (·.value)))
      (dead : ¬ Viable ((before ++ [token]).map (·.value))) : Fault tokens (misplaced token)

/-! ### Tokens that spell trees -/

theorem SpellsAll.append {tokens more : List ParenToken} {trees others : List ValueTree}
    (h : SpellsAll tokens trees) (h' : SpellsAll more others) :
    SpellsAll (tokens ++ more) (trees ++ others) := by
  induction trees generalizing tokens with
  | nil => cases h; exact h'
  | cons tree trees ih =>
      cases h with
      | cons first rest =>
          rw [List.append_assoc, List.cons_append]
          exact .cons first (ih rest)

theorem SpellsAll.singleton {tokens : List ParenToken} {tree : ValueTree} (h : Spells tokens tree) :
    SpellsAll tokens [tree] := by
  have hall := SpellsAll.cons h .nil
  rwa [List.append_nil] at hall

theorem Spells.ne_nil {tokens : List ParenToken} {tree : ValueTree} (h : Spells tokens tree) :
    tokens ≠ [] := by
  cases h <;> exact List.cons_ne_nil _ _

theorem Spells.viable {tokens : List ParenToken} {tree : ValueTree} (h : Spells tokens tree) :
    Viable tokens := by
  refine ⟨[], tree, ?_⟩
  rwa [List.append_nil]

/-- What can be gone on with could be gone on with before. -/
theorem Viable.of_prefix {tokens more : List ParenToken} (h : Viable more) (hp : tokens <+: more) :
    Viable tokens := by
  obtain ⟨rest, rfl⟩ := hp
  obtain ⟨after, tree, hspells⟩ := h
  rw [List.append_assoc] at hspells
  exact ⟨rest ++ after, tree, hspells⟩

/-! ### What the tokens read so far look like -/

/-- The tokens open these child lists and hold all that has been read of them. -/
inductive Opened : List (Placed ParenToken) → List OpenList → Prop where
  | nil : Opened [] []
  | cons {outer inner : List (Placed ParenToken)} {levels : List OpenList} {text : String}
      {before : List ValueTree} {position position' : Nat} (outside : Opened outer levels)
      (inside : SpellsAll (inner.map (·.value)) before.reverse) :
      Opened (outer ++ ⟨.value text, position'⟩ :: ⟨.openParen, position⟩ :: inner)
        (⟨position, text, before⟩ :: levels)

/-- The tokens lead from the start to the state. -/
inductive Reached : List (Placed ParenToken) → ParenState → Prop where
  /-- The next value makes a new node. -/
  | awaiting {tokens : List (Placed ParenToken)} {levels : List OpenList}
      (opened : Opened tokens levels) : Reached tokens ⟨levels, none, none⟩
  /-- The last token is a value, which a child list may follow. -/
  | valued {tokens : List (Placed ParenToken)} {levels : List OpenList} {text : String}
      {position : Nat} (opened : Opened tokens levels) :
      Reached (tokens ++ [⟨.value text, position⟩]) ⟨levels, some text, none⟩
  /-- The tokens spell a tree. -/
  | complete {tokens : List (Placed ParenToken)} {tree : ValueTree}
      (spelled : Spells (tokens.map (·.value)) tree) : Reached tokens ⟨[], none, some tree⟩

theorem Opened.eq_nil {tokens : List (Placed ParenToken)} (h : Opened tokens []) : tokens = [] := by
  cases h
  rfl

/-- A complete node belongs to the innermost child list. -/
theorem Opened.place {tokens more : List (Placed ParenToken)} {level : OpenList}
    {levels : List OpenList} {tree : ValueTree} (h : Opened tokens (level :: levels))
    (hmore : Spells (more.map (·.value)) tree) :
    Opened (tokens ++ more) ({ level with before := tree :: level.before } :: levels) := by
  cases h with
  | cons outside inside =>
      rw [List.append_assoc, List.cons_append, List.cons_append]
      refine .cons outside ?_
      rw [List.map_append, List.reverse_cons]
      exact inside.append (.singleton hmore)

/-- Child lists that are open can be closed, after any more nodes in the innermost one. -/
theorem Opened.exists_spells {tokens : List (Placed ParenToken)} {levels : List OpenList}
    (h : Opened tokens levels) :
    ∀ {extra : List ParenToken} {trees : List ValueTree}, levels ≠ [] → SpellsAll extra trees →
      ∃ more tree, more ≠ [] ∧ Spells (tokens.map (·.value) ++ extra ++ more) tree := by
  induction h with
  | nil => exact fun hne => absurd rfl hne
  | @cons outer inner levels text before position position' outside inside ih =>
      intro extra trees _ hextra
      have hnode := Spells.branch text (inside.append hextra)
      by_cases hlevels : levels = []
      · subst hlevels
        obtain rfl := outside.eq_nil
        refine ⟨[.closeParen], .node text (before.reverse ++ trees), List.cons_ne_nil _ _, ?_⟩
        simpa using hnode
      · obtain ⟨more, tree, -, hspells⟩ := ih hlevels (.singleton hnode)
        refine ⟨.closeParen :: more, tree, List.cons_ne_nil _ _, ?_⟩
        simpa using hspells

namespace Reached

variable {tokens : List (Placed ParenToken)} {s s' : ParenState} {token : Placed ParenToken}

/-- With the value just read completed, the next value makes a new node or there is a tree. -/
theorem settled (h : Reached tokens s) :
    (∃ levels, s.settle = ⟨levels, none, none⟩ ∧ Opened tokens levels) ∨
      ∃ tree, s.settle = ⟨[], none, some tree⟩ ∧ Spells (tokens.map (·.value)) tree := by
  cases h with
  | awaiting opened => exact .inl ⟨_, rfl, opened⟩
  | complete spelled => exact .inr ⟨_, rfl, spelled⟩
  | @valued tokens levels text position opened =>
      cases levels with
      | nil =>
          obtain rfl := opened.eq_nil
          exact .inr ⟨_, rfl, .leaf text⟩
      | cons level levels => exact .inl ⟨_, rfl, opened.place (.leaf text)⟩

/-- The tokens read so far can be gone on with. -/
theorem viable (h : Reached tokens s) : Viable (tokens.map (·.value)) := by
  rcases h.settled with ⟨levels, -, opened⟩ | ⟨tree, -, spelled⟩
  · cases levels with
    | nil =>
        obtain rfl := opened.eq_nil
        exact ⟨[.value ""], _, .leaf ""⟩
    | cons level levels =>
        obtain ⟨more, tree, -, hspells⟩ := opened.exists_spells (List.cons_ne_nil _ _) .nil
        rw [List.append_nil] at hspells
        exact ⟨more, tree, hspells⟩
  · exact spelled.viable

/-- Closing a child list makes a node of it. -/
theorem close {level : OpenList} {levels : List OpenList} {position : Nat}
    (h : Opened tokens (level :: levels)) :
    Reached (tokens ++ [⟨.closeParen, position⟩])
      (ParenState.place ⟨levels, none, none⟩ (.node level.value level.before.reverse)) := by
  cases h with
  | @cons outer inner _ text before _ position' outside inside =>
      have hnode := Spells.branch text inside
      rw [List.append_assoc]
      cases levels with
      | nil =>
          obtain rfl := outside.eq_nil
          refine .complete ?_
          simpa using hnode
      | cons level levels =>
          refine .awaiting (outside.place ?_)
          simpa using hnode

/-- **Taking in a token keeps track of what has been read.** -/
theorem step (h : Reached tokens s) (hstep : s.step token = .ok s') :
    Reached (tokens ++ [token]) s' := by
  obtain ⟨kind, position⟩ := token
  cases kind with
  | value text =>
      simp only [ParenState.step] at hstep
      rcases h.settled with ⟨levels, hs, opened⟩ | ⟨tree, hs, -⟩
      · rw [hs, Option.isSome_none, Bool.and_false, if_neg Bool.false_ne_true] at hstep
        obtain rfl := Except.ok.inj hstep
        exact .valued opened
      · rw [hs] at hstep
        exact absurd hstep (by simp)
  | openParen =>
      cases h with
      | awaiting opened => exact absurd hstep (by simp [ParenState.step])
      | complete spelled => exact absurd hstep (by simp [ParenState.step])
      | valued opened =>
          obtain rfl := Except.ok.inj hstep
          rw [List.append_assoc]
          exact .awaiting (.cons opened .nil)
  | closeParen =>
      simp only [ParenState.step] at hstep
      rcases h.settled with ⟨levels, hs, opened⟩ | ⟨tree, hs, -⟩
      · rw [hs] at hstep
        cases levels with
        | nil => exact absurd hstep (by simp)
        | cons level levels =>
            obtain rfl := Except.ok.inj hstep
            exact close opened
      · rw [hs] at hstep
        exact absurd hstep (by simp)

end Reached

/-! ### Reading token after token -/

/-- A token that is refused is refused as misplaced. -/
theorem eq_misplaced_of_step {s : ParenState} {token : Placed ParenToken} {e : FormatError}
    (h : s.step token = .error e) : e = misplaced token := by
  obtain ⟨kind, position⟩ := token
  cases kind with
  | value text =>
      simp only [ParenState.step] at h
      split at h
      · exact (Except.error.inj h).symm
      · exact absurd h (by simp)
  | openParen =>
      simp only [ParenState.step] at h
      split at h
      · exact (Except.error.inj h).symm
      · exact absurd h (by simp)
  | closeParen =>
      simp only [ParenState.step] at h
      split at h
      · exact (Except.error.inj h).symm
      · exact absurd h (by simp)

theorem positions_place (s : ParenState) (tree : ValueTree) :
    (s.place tree).levels.map (·.position) = s.levels.map (·.position) := by
  obtain ⟨_ | ⟨level, levels⟩, last, root⟩ := s <;> rfl

theorem positions_settle (s : ParenState) :
    s.settle.levels.map (·.position) = s.levels.map (·.position) := by
  obtain ⟨levels, _ | text, root⟩ := s
  · rfl
  · exact positions_place _ _

/-- Taking in a token opens and closes parentheses as the token says. -/
theorem positions_of_step {s s' : ParenState} {token : Placed ParenToken}
    (h : s.step token = .ok s') :
    s'.levels.map (·.position) = bracket (s.levels.map (·.position)) token := by
  obtain ⟨kind, position⟩ := token
  have hsettle := positions_settle s
  cases kind with
  | value text =>
      simp only [ParenState.step] at h
      split at h
      · exact absurd h (by simp)
      · obtain rfl := Except.ok.inj h
        exact hsettle
  | openParen =>
      simp only [ParenState.step] at h
      split at h
      · exact absurd h (by simp)
      · obtain rfl := Except.ok.inj h
        rfl
  | closeParen =>
      simp only [ParenState.step] at h
      split at h
      · exact absurd h (by simp)
      · rename_i level levels hlevels
        obtain rfl := Except.ok.inj h
        rw [hlevels] at hsettle
        rw [positions_place, bracket, ← hsettle]
        rfl

/-- A run that fails goes well up to some token and fails at that one. -/
theorem exists_of_run_error {s : ParenState} {tokens : List (Placed ParenToken)} {e : FormatError}
    (h : tokens.foldlM ParenState.step s = .error e) :
    ∃ before token after s', tokens = before ++ token :: after ∧
      before.foldlM ParenState.step s = .ok s' ∧ s'.step token = .error e := by
  induction tokens generalizing s with
  | nil => exact absurd h (by simp [pure, Except.pure])
  | cons token tokens ih =>
      rw [List.foldlM_cons] at h
      cases hstep : s.step token with
      | error e' =>
          rw [hstep] at h
          obtain rfl := Except.error.inj h
          exact ⟨[], token, tokens, s, rfl, rfl, hstep⟩
      | ok s₁ =>
          rw [hstep] at h
          obtain ⟨before, token', after, s', rfl, hrun, herror⟩ := ih h
          refine ⟨token :: before, token', after, s', rfl, ?_, herror⟩
          rw [List.foldlM_cons, hstep]
          exact hrun

/-- What one token does holds of a whole run. -/
theorem of_run {s s' : ParenState} {tokens more : List (Placed ParenToken)}
    (h : Reached tokens s) (hpositions : s.levels.map (·.position) = openParens tokens)
    (hrun : more.foldlM ParenState.step s = .ok s') :
    Reached (tokens ++ more) s' ∧ s'.levels.map (·.position) = openParens (tokens ++ more) := by
  induction more generalizing tokens s with
  | nil =>
      obtain rfl := Except.ok.inj hrun
      rw [List.append_nil]
      exact ⟨h, hpositions⟩
  | cons token more ih =>
      rw [List.foldlM_cons] at hrun
      cases hstep : s.step token with
      | error e => rw [hstep] at hrun; exact absurd hrun (by simp [bind, Except.bind])
      | ok s₁ =>
          rw [hstep] at hrun
          have hpositions₁ : s₁.levels.map (·.position) = openParens (tokens ++ [token]) := by
            rw [positions_of_step hstep, hpositions, openParens, openParens, List.foldl_append]
            rfl
          have hrest := ih (h.step hstep) hpositions₁ hrun
          rwa [List.append_assoc] at hrest

/-- What has been read from the start. -/
theorem reached_of_run {s : ParenState} {tokens : List (Placed ParenToken)}
    (hrun : tokens.foldlM ParenState.step {} = .ok s) :
    Reached tokens s ∧ s.levels.map (·.position) = openParens tokens :=
  of_run (.awaiting .nil) rfl hrun

/-! ### Tokens that spell a tree are read -/

/-- A state with the value just read completed has none. -/
theorem last_settle (s : ParenState) : s.settle.last = none := by
  obtain ⟨_ | ⟨level, levels⟩, _ | text, root⟩ := s <;> rfl

theorem place_levels {level : OpenList} {levels : List OpenList} {last : Option String}
    {root : Option ValueTree} (trees : List ValueTree) :
    trees.foldl ParenState.place ⟨level :: levels, last, root⟩ =
      ⟨{ level with before := trees.reverse ++ level.before } :: levels, last, root⟩ := by
  induction trees generalizing level with
  | nil => rfl
  | cons tree trees ih =>
      rw [List.foldl_cons]
      show trees.foldl ParenState.place
        ⟨{ level with before := tree :: level.before } :: levels, last, root⟩ = _
      rw [ih]
      simp

/-- A state that can take a node can take a value, which is then a node without children. -/
theorem step_value {s : ParenState} (hroom : s.settle.levels = [] → s.settle.root = none)
    (text : String) (position : Nat) :
    s.step ⟨.value text, position⟩ = .ok { s.settle with last := some text } := by
  simp only [ParenState.step]
  refine if_neg ?_
  rw [Bool.and_eq_true, List.isEmpty_iff]
  rintro ⟨hlevels, hroot⟩
  rw [hroom hlevels] at hroot
  exact absurd hroot (by simp)

theorem settle_valued (s : ParenState) (text : String) :
    ParenState.settle { s.settle with last := some text } = s.settle.place (.node text []) := by
  have hlast := last_settle s
  generalize s.settle = t at hlast
  obtain ⟨levels, last, root⟩ := t
  obtain rfl : last = none := hlast
  rfl

/-- Reading a value and a child list makes a node of them. -/
theorem run_branch {s : ParenState} (hroom : s.settle.levels = [] → s.settle.root = none)
    {text : String} {inner : List (Placed ParenToken)} {trees : List ValueTree}
    (position position' position'' : Nat)
    (hinner : ∀ s₁ : ParenState, s₁.settle.levels ≠ [] →
      ∃ s₂, inner.foldlM ParenState.step s₁ = .ok s₂ ∧
        s₂.settle = trees.foldl ParenState.place s₁.settle) :
    ∃ s', (⟨.value text, position⟩ :: ⟨.openParen, position'⟩ ::
        (inner ++ [⟨.closeParen, position''⟩])).foldlM ParenState.step s = .ok s' ∧
      s'.settle = s.settle.place (.node text trees) := by
  have hlast := last_settle s
  -- the child list that is opened here is the innermost one until it is closed
  obtain ⟨s₂, hrun, hsettled⟩ :=
    hinner ⟨⟨position', text, []⟩ :: s.settle.levels, none, s.settle.root⟩ (List.cons_ne_nil _ _)
  have hlevels : s₂.settle = ⟨⟨position', text, trees.reverse⟩ :: s.settle.levels, none,
      s.settle.root⟩ := by
    rw [hsettled]
    refine (place_levels trees).trans ?_
    rw [List.append_nil]
  have hclose : s₂.step ⟨.closeParen, position''⟩ = .ok (s.settle.place (.node text trees)) := by
    simp only [ParenState.step]
    rw [hlevels]
    dsimp only
    rw [List.reverse_reverse]
    generalize s.settle = t at hlast
    obtain ⟨levels, last, root⟩ := t
    obtain rfl : last = none := hlast
    rfl
  refine ⟨s.settle.place (.node text trees), ?_, ?_⟩
  · rw [List.foldlM_cons, step_value hroom]
    show (inner ++ [_]).foldlM ParenState.step _ = _
    rw [List.foldlM_append, hrun]
    show [_].foldlM ParenState.step s₂ = _
    rw [List.foldlM_cons, hclose]
    rfl
  · generalize s.settle = t at hlast
    obtain ⟨_ | ⟨level, levels⟩, last, root⟩ := t
    all_goals
      obtain rfl : last = none := hlast
      rfl

mutual

/-- **Tokens that spell a tree are read, from any state that can take a node, as that node.** -/
theorem run_of_spells : ∀ {kinds : List ParenToken} {tree : ValueTree}, Spells kinds tree →
    ∀ {tokens : List (Placed ParenToken)} {s : ParenState}, tokens.map (·.value) = kinds →
      (s.settle.levels = [] → s.settle.root = none) →
      ∃ s', tokens.foldlM ParenState.step s = .ok s' ∧ s'.settle = s.settle.place tree
  | _, _, .leaf text, tokens, s, htokens, hroom => by
      obtain ⟨⟨_, position⟩, _, rfl, rfl, hnil⟩ := List.map_eq_cons_iff.mp htokens
      obtain rfl := List.map_eq_nil_iff.mp hnil
      refine ⟨_, ?_, settle_valued s text⟩
      rw [List.foldlM_cons, step_value hroom]
      rfl
  | _, _, .branch text children, tokens, s, htokens, hroom => by
      obtain ⟨⟨_, position⟩, _, rfl, rfl, hopen⟩ := List.map_eq_cons_iff.mp htokens
      obtain ⟨⟨_, position'⟩, _, rfl, rfl, hbeneath⟩ := List.map_eq_cons_iff.mp hopen
      obtain ⟨inner, _, rfl, hinner, hlast⟩ := List.map_eq_append_iff.mp hbeneath
      obtain ⟨⟨_, position''⟩, _, rfl, rfl, hnil⟩ := List.map_eq_cons_iff.mp hlast
      obtain rfl := List.map_eq_nil_iff.mp hnil
      exact run_branch hroom position position' position'' fun _ hs₁ =>
        run_of_spellsAll children hinner hs₁

theorem run_of_spellsAll : ∀ {kinds : List ParenToken} {trees : List ValueTree},
    SpellsAll kinds trees →
    ∀ {tokens : List (Placed ParenToken)} {s : ParenState}, tokens.map (·.value) = kinds →
      s.settle.levels ≠ [] →
      ∃ s', tokens.foldlM ParenState.step s = .ok s' ∧
        s'.settle = trees.foldl ParenState.place s.settle
  | _, _, .nil, tokens, s, htokens, _ => by
      obtain rfl := List.map_eq_nil_iff.mp htokens
      exact ⟨s, rfl, rfl⟩
  | _, _, @SpellsAll.cons _ _ tree _ first rest, tokens, s, htokens, hlevels => by
      obtain ⟨front, back, rfl, hfront, hback⟩ := List.map_eq_append_iff.mp htokens
      obtain ⟨s₁, hrun₁, hs₁⟩ := run_of_spells first hfront fun hnil => absurd hnil hlevels
      have hlevels₁ : s₁.settle.levels ≠ [] := by
        rw [hs₁]
        intro hnil
        have hpositions := positions_place s.settle tree
        rw [hnil] at hpositions
        exact hlevels (List.map_eq_nil_iff.mp hpositions.symm)
      obtain ⟨s₂, hrun₂, hs₂⟩ := run_of_spellsAll rest hback hlevels₁
      refine ⟨s₂, ?_, ?_⟩
      · rw [List.foldlM_append, hrun₁]
        exact hrun₂
      · rw [hs₂, hs₁, List.foldl_cons]

end

/-- Tokens that spell a tree are read as that tree. -/
theorem ofParenTokens_of_spells {tokens : List (Placed ParenToken)} {tree : ValueTree}
    (h : Spells (tokens.map (·.value)) tree) : ofParenTokens tokens = .ok tree := by
  obtain ⟨s, hrun, hs⟩ := run_of_spells (s := {}) h rfl fun _ => rfl
  have hfinish : s.finish = .ok tree := by
    rw [ParenState.finish, hs]
    rfl
  rw [ofParenTokens, hrun]
  exact hfinish

/-! ### What reading answers -/

/-- What has been read of the tokens when none is left. -/
theorem ofParenTokens_cases (tokens : List (Placed ParenToken)) :
    (∃ s, tokens.foldlM ParenState.step {} = .ok s ∧ ofParenTokens tokens = s.finish) ∨
      ∃ e, tokens.foldlM ParenState.step {} = .error e ∧ ofParenTokens tokens = .error e := by
  unfold ofParenTokens
  cases tokens.foldlM ParenState.step {} with
  | ok s => exact .inl ⟨s, rfl, rfl⟩
  | error e => exact .inr ⟨e, rfl, rfl⟩

/-- A tree that reading answers with is spelled by the tokens. -/
theorem spells_of_ofParenTokens {tokens : List (Placed ParenToken)} {tree : ValueTree}
    (h : ofParenTokens tokens = .ok tree) : Spells (tokens.map (·.value)) tree := by
  rcases ofParenTokens_cases tokens with ⟨s, hrun, heq⟩ | ⟨e, -, heq⟩
  · rw [heq, ParenState.finish] at h
    rcases (reached_of_run hrun).1.settled with ⟨levels, hs, opened⟩ | ⟨tree', hs, spelled⟩
    · rw [hs] at h
      cases levels <;> exact absurd h (by simp)
    · rw [hs] at h
      obtain rfl := Except.ok.inj h
      exact spelled
  · rw [heq] at h
    exact absurd h (by simp)

/-- A token that is refused cannot be gone on from. -/
theorem not_viable_of_step {s : ParenState} {tokens : List (Placed ParenToken)}
    {token : Placed ParenToken} {e : FormatError}
    (hrun : tokens.foldlM ParenState.step {} = .ok s) (hstep : s.step token = .error e) :
    ¬ Viable ((tokens ++ [token]).map (·.value)) := by
  rintro ⟨more, tree, hspells⟩
  -- were there tokens to go on with, reading would go on with them
  have hmap : (tokens ++ token :: more.map (⟨·, 0⟩)).map (·.value) =
      (tokens ++ [token]).map (·.value) ++ more := by
    simp [Function.comp_def]
  rw [← hmap] at hspells
  have hok := ofParenTokens_of_spells hspells
  rw [ofParenTokens, List.foldlM_append, hrun] at hok
  have herror : (token :: more.map (⟨·, 0⟩)).foldlM ParenState.step s = .error e := by
    rw [List.foldlM_cons, hstep]
    rfl
  have hstop : (Except.error e >>= ParenState.finish) = .ok tree := herror ▸ hok
  exact absurd hstop (by simp [bind, Except.bind])

/-- An error that reading answers with is a fault of the tokens. -/
theorem fault_of_ofParenTokens {tokens : List (Placed ParenToken)} {e : FormatError}
    (h : ofParenTokens tokens = .error e) : Fault tokens e := by
  have hnone : ∀ tree, ¬ Spells (tokens.map (·.value)) tree := by
    intro tree hspells
    rw [ofParenTokens_of_spells hspells] at h
    exact absurd h (by simp)
  rcases ofParenTokens_cases tokens with ⟨s, hrun, heq⟩ | ⟨e', hrun, heq⟩
  · obtain ⟨hreached, hpositions⟩ := reached_of_run hrun
    rw [heq, ParenState.finish] at h
    rcases hreached.settled with ⟨levels, hs, opened⟩ | ⟨tree, hs, spelled⟩
    · have hlevels := positions_settle s
      rw [hs, hpositions] at hlevels
      rw [hs] at h
      cases levels with
      | nil =>
          obtain rfl := Except.error.inj h
          exact .empty opened.eq_nil
      | cons level levels =>
          obtain rfl := Except.error.inj h
          obtain ⟨more, tree, hmore, hspells⟩ :=
            opened.exists_spells (List.cons_ne_nil _ _) .nil
          rw [List.append_nil] at hspells
          refine .unclosed ?_ ⟨more, tree, hmore, hspells⟩ hnone ?_
          · rintro rfl
            exact absurd hlevels (by simp [openParens])
          · rw [← hlevels]
            rfl
    · exact absurd spelled (hnone tree)
  · obtain ⟨before, token, after, s, rfl, hbefore, hstep⟩ := exists_of_run_error hrun
    rw [heq] at h
    obtain rfl := Except.error.inj h
    obtain rfl := eq_misplaced_of_step hstep
    exact .misplaced rfl (reached_of_run hbefore).1.viable (not_viable_of_step hbefore hstep)

/-! ### Tokens have one fault at most, and none if they spell a tree -/

theorem prefix_split {tokens before after : List (Placed ParenToken)} {token : Placed ParenToken}
    (split : tokens = before ++ token :: after) : before ++ [token] <+: tokens := by
  refine ⟨after, ?_⟩
  rw [split, List.append_assoc]
  rfl

/-- The tokens that can be gone on with end before the first token that is dead. -/
theorem length_le_of_dead {tokens before before' after after' : List (Placed ParenToken)}
    {token token' : Placed ParenToken} (split : tokens = before ++ token :: after)
    (split' : tokens = before' ++ token' :: after') (viable : Viable (before.map (·.value)))
    (dead : ¬ Viable ((before' ++ [token']).map (·.value))) : before.length ≤ before'.length := by
  refine Nat.le_of_not_lt fun hlt => ?_
  have hlength : (before' ++ [token']).length ≤ before.length := by
    rw [List.length_append, List.length_singleton]
    exact hlt
  have hbefore' : before' ++ [token'] <+: before :=
    List.prefix_of_prefix_length_le (prefix_split split') ⟨_, split.symm⟩ hlength
  exact dead (viable.of_prefix (hbefore'.map _))

namespace Fault

variable {tokens : List (Placed ParenToken)} {e e' : FormatError}

theorem not_spells (h : Fault tokens e) {tree : ValueTree} :
    ¬ Spells (tokens.map (·.value)) tree := by
  intro hspells
  cases h with
  | empty eq_nil =>
      subst eq_nil
      exact hspells.ne_nil rfl
  | unclosed _ _ noTree _ => exact noTree tree hspells
  | misplaced split _ dead =>
      exact dead (hspells.viable.of_prefix ((prefix_split split).map _))

/-- Where only tokens at the end are missing, there is no other fault. -/
theorem eq_unclosed (h : Fault tokens e) (ne_nil : tokens ≠ [])
    (unfinished : ProperPrefix (tokens.map (·.value))) :
    ∃ position, e = .unclosed position ∧ (openParens tokens).head? = some position := by
  cases h with
  | empty eq_nil => exact absurd eq_nil ne_nil
  | unclosed _ _ _ innermost => exact ⟨_, rfl, innermost⟩
  | misplaced split _ dead =>
      obtain ⟨more, tree, -, hspells⟩ := unfinished
      have hviable : Viable (tokens.map (·.value)) := ⟨more, tree, hspells⟩
      exact absurd (hviable.of_prefix ((prefix_split split).map _)) dead

theorem unique (h : Fault tokens e) (h' : Fault tokens e') : e = e' := by
  cases h with
  | empty eq_nil =>
      cases h' with
      | empty => rfl
      | unclosed ne_nil => exact absurd eq_nil ne_nil
      | misplaced split => exact absurd (eq_nil.symm.trans split) (by simp)
  | unclosed ne_nil unfinished _ innermost =>
      obtain ⟨position, rfl, innermost'⟩ := h'.eq_unclosed ne_nil unfinished
      rw [innermost] at innermost'
      rw [Option.some.inj innermost']
  | @misplaced before after token split viable dead =>
      cases h' with
      | empty eq_nil => exact absurd (eq_nil.symm.trans split) (by simp)
      | unclosed _ unfinished =>
          obtain ⟨more, tree, -, hspells⟩ := unfinished
          have hviable : Viable (tokens.map (·.value)) := ⟨more, tree, hspells⟩
          exact absurd (hviable.of_prefix ((prefix_split split).map _)) dead
      | @misplaced before' after' token' split' viable' dead' =>
          have hlength : before.length = before'.length :=
            Nat.le_antisymm (length_le_of_dead split split' viable dead')
              (length_le_of_dead split' split viable' dead)
          have hsame := List.append_inj_right (split.symm.trans split') hlength
          rw [(List.cons.inj hsame).1]

end Fault

/-- **The reader accepts exactly the grammar, and its errors say where the grammar is left.**  Of a
text that can be cut into tokens, it answers with the tree that the tokens spell.  If they spell
none, it names the first token after which there is no tree to come, or the parenthesis that is
open at the end, or says that there is no token. -/
theorem readParen_iff_spells {text : String} {tokens : List (Placed ParenToken)}
    (h : parenTokens 0 text.toList = .ok tokens) :
    (∀ tree, readParen text = .ok tree ↔ Spells (tokens.map (·.value)) tree) ∧
      ∀ e, readParen text = .error e ↔ Fault tokens e := by
  have hread : readParen text = ofParenTokens tokens := by
    rw [readParen, h]
    rfl
  rw [hread]
  refine ⟨fun tree => ⟨spells_of_ofParenTokens, ofParenTokens_of_spells⟩, fun e =>
    ⟨fault_of_ofParenTokens, fun hfault => ?_⟩⟩
  cases hanswer : ofParenTokens tokens with
  | ok tree => exact absurd (spells_of_ofParenTokens hanswer) hfault.not_spells
  | error e' => rw [(fault_of_ofParenTokens hanswer).unique hfault]

/-- A node after a tree is complete is the fault of these tokens, though the tree was fine. -/
theorem readParen_iff_spells_secondRoot :
    parenTokens 0 "a(b \"\")c".toList = .ok [⟨.value "a", 0⟩, ⟨.openParen, 1⟩, ⟨.value "b", 2⟩,
        ⟨.value "", 4⟩, ⟨.closeParen, 6⟩, ⟨.value "c", 7⟩] ∧
      Fault [⟨.value "a", 0⟩, ⟨.openParen, 1⟩, ⟨.value "b", 2⟩, ⟨.value "", 4⟩, ⟨.closeParen, 6⟩,
        ⟨.value "c", 7⟩] (.secondRoot 7) := by
  have htokens : parenTokens 0 "a(b \"\")c".toList = .ok [⟨.value "a", 0⟩, ⟨.openParen, 1⟩,
      ⟨.value "b", 2⟩, ⟨.value "", 4⟩, ⟨.closeParen, 6⟩, ⟨.value "c", 7⟩] := by cbv
  have hread : readParen "a(b \"\")c" = .error (.secondRoot 7) := by cbv
  exact ⟨htokens, ((readParen_iff_spells htokens).2 _).mp hread⟩

end TreeRules.ValueTree
