/-
Reading a derivation from left to right.

The pieces of a derivation move a reader on: a token is taken off, the end of a captured element
closes the capture, and a repetition has to be allowed.  `Reads` follows them one by one, as the
readers do.  `reads_iff` says what that comes to: the tokens are those of the pieces, and the pieces
meet the conditions that the grammar leaves open.
-/
import TreeRules.Proofs.Pattern.Grammar

namespace TreeRules

open TreeRules.Text

namespace Grammar

/-! ### Tokens and ends among pieces -/

@[simp] theorem tokensOf_nil : tokensOf [] = [] := rfl

@[simp] theorem tokensOf_token (token : Placed Token) (pieces : List Piece) :
    tokensOf (.token token :: pieces) = token :: tokensOf pieces := rfl

@[simp] theorem tokensOf_ended (name : String) (pieces : List Piece) :
    tokensOf (.ended name :: pieces) = tokensOf pieces := rfl

@[simp] theorem tokensOf_repeated (body : Pattern) (min : Nat) (max : Option Nat)
    (pieces : List Piece) : tokensOf (.repeated body min max :: pieces) = tokensOf pieces := rfl

@[simp] theorem tokensOf_append (pieces pieces' : List Piece) :
    tokensOf (pieces ++ pieces') = tokensOf pieces ++ tokensOf pieces' := List.filterMap_append

theorem mem_pieces_of_mem_tokensOf {pieces : List Piece} {t : Placed Token}
    (h : t ∈ tokensOf pieces) : .token t ∈ pieces := by
  obtain ⟨piece, hpiece, heq⟩ := List.mem_filterMap.mp h
  cases piece with
  | token t' =>
      obtain rfl : t' = t := Option.some.inj heq
      exact hpiece
  | ended name => cases heq
  | repeated body min max => cases heq

@[simp] theorem endedIn_nil : endedIn [] = [] := rfl

@[simp] theorem endedIn_token (token : Placed Token) (pieces : List Piece) :
    endedIn (.token token :: pieces) = endedIn pieces := rfl

@[simp] theorem endedIn_ended (name : String) (pieces : List Piece) :
    endedIn (.ended name :: pieces) = name :: endedIn pieces := rfl

@[simp] theorem endedIn_repeated (body : Pattern) (min : Nat) (max : Option Nat)
    (pieces : List Piece) : endedIn (.repeated body min max :: pieces) = endedIn pieces := rfl

@[simp] theorem endedIn_append (pieces pieces' : List Piece) :
    endedIn (pieces ++ pieces') = endedIn pieces ++ endedIn pieces' := List.filterMap_append

theorem tokensOf_map_token (tokens : List (Placed Token)) :
    tokensOf (tokens.map .token) = tokens := by
  induction tokens with
  | nil => rfl
  | cons token tokens ih => rw [List.map_cons, tokensOf_token, ih]

theorem endedIn_map_token (tokens : List (Placed Token)) : endedIn (tokens.map .token) = [] := by
  induction tokens with
  | nil => rfl
  | cons token tokens ih => exact ih

theorem endedIn_timesPieces (body : Pattern) (times : Option Times) :
    endedIn (timesPieces body times) = [] := by
  cases times with
  | none => rfl
  | some times => exact endedIn_map_token _

theorem backward_nil (closed : List String) : Backward closed [] := by
  intro before name position after h
  exact absurd h (by simp)

theorem backward_cons {closed : List String} {piece : Piece} {pieces : List Piece} :
    Backward closed (piece :: pieces) ↔
      (∀ name position, piece = .token ⟨.reference name, position⟩ → name ∈ closed) ∧
        Backward (closed ++ endedIn [piece]) pieces := by
  constructor
  · intro h
    refine ⟨fun name position heq => ?_, fun before name position after heq => ?_⟩
    · have hname := h [] name position pieces (heq ▸ rfl)
      rwa [endedIn_nil, List.append_nil] at hname
    · have hname := h (piece :: before) name position after (heq ▸ rfl)
      rwa [List.append_assoc, ← endedIn_append]
  · rintro ⟨hpiece, hpieces⟩ before name position after heq
    cases before with
    | nil =>
        rw [endedIn_nil, List.append_nil]
        exact hpiece name position (List.cons.inj heq).1
    | cons first before =>
        obtain ⟨rfl, hafter⟩ := List.cons.inj heq
        have hname := hpieces before name position after hafter
        rwa [List.append_assoc, ← endedIn_append] at hname

/-! ### Reading pieces -/

/-- Reading the pieces leads from the state `s` to the state `s'`. -/
def Reads (maxBound : Nat) : List Piece → ReadState → ReadState → Prop
  | [], s, s' => s' = s
  | .token token :: pieces, s, s' =>
    ∃ rest, s.rest = token :: rest ∧
      (∀ name, token.value = .reference name → name ∈ s.closed) ∧
        Reads maxBound pieces { s with rest } s'
  | .ended name :: pieces, s, s' =>
    Reads maxBound pieces { s with closed := s.closed ++ [name] } s'
  | .repeated body min max :: pieces, s, s' =>
    Allowed maxBound body min max ∧ Reads maxBound pieces s s'

variable {maxBound : Nat}

theorem reads_append {pieces pieces' : List Piece} {s s' : ReadState} :
    Reads maxBound (pieces ++ pieces') s s' ↔
      ∃ s₁, Reads maxBound pieces s s₁ ∧ Reads maxBound pieces' s₁ s' := by
  induction pieces generalizing s with
  | nil => simp [Reads]
  | cons piece pieces ih =>
      cases piece with
      | token token =>
          simp only [List.cons_append, Reads, ih]
          constructor
          · rintro ⟨rest, hrest, hknown, s₁, h, h'⟩
            exact ⟨s₁, ⟨rest, hrest, hknown, h⟩, h'⟩
          · rintro ⟨s₁, ⟨rest, hrest, hknown, h⟩, h'⟩
            exact ⟨rest, hrest, hknown, s₁, h, h'⟩
      | ended name => simp only [List.cons_append, Reads, ih]
      | repeated body min max =>
          simp only [List.cons_append, Reads, ih]
          constructor
          · rintro ⟨hallowed, s₁, h, h'⟩
            exact ⟨s₁, ⟨hallowed, h⟩, h'⟩
          · rintro ⟨s₁, ⟨hallowed, h⟩, h'⟩
            exact ⟨hallowed, s₁, h, h'⟩

/-- Taking the tokens off leads from the state `s` to the state `s'`. -/
def Takes (tokens : List (Placed Token)) (s s' : ReadState) : Prop :=
  s.rest = tokens ++ s'.rest ∧ s'.closed = s.closed

namespace Takes

variable {tokens tokens' : List (Placed Token)} {s s₁ s' : ReadState}

theorem nil (s : ReadState) : Takes [] s s := ⟨rfl, rfl⟩

theorem cons {token : Placed Token} {rest : List (Placed Token)} (hrest : s.rest = token :: rest)
    (h : Takes tokens { s with rest } s') : Takes (token :: tokens) s s' :=
  ⟨hrest.trans (congrArg _ h.1), h.2⟩

theorem append (h : Takes tokens s s₁) (h' : Takes tokens' s₁ s') :
    Takes (tokens ++ tokens') s s' := by
  refine ⟨?_, h'.2.trans h.2⟩
  rw [h.1, h'.1, List.append_assoc]

theorem eq (h : Takes tokens s s') : s = { s' with rest := tokens ++ s'.rest } := by
  obtain ⟨rest, closed⟩ := s
  obtain ⟨rfl, rfl⟩ := h
  rfl

end Takes

/-- Tokens that refer to nothing are just taken off. -/
theorem reads_tokens {tokens : List (Placed Token)}
    (plain : ∀ token ∈ tokens, ∀ name, token.value ≠ .reference name) {s s' : ReadState} :
    Reads maxBound (tokens.map .token) s s' ↔ Takes tokens s s' := by
  induction tokens generalizing s with
  | nil =>
      constructor
      · rintro rfl
        exact .nil s'
      · exact fun h => h.eq.symm
  | cons token tokens ih =>
      rw [List.forall_mem_cons] at plain
      constructor
      · rintro ⟨rest, hrest, -, h⟩
        exact .cons hrest ((ih plain.2).mp h)
      · rintro ⟨hrest, hclosed⟩
        exact ⟨_, hrest, fun name h => absurd h (plain.1 name), (ih plain.2).mpr ⟨rfl, hclosed⟩⟩

/-- What reading some pieces needs and does. -/
theorem reads_iff {pieces : List Piece} {s s' : ReadState} :
    Reads maxBound pieces s s' ↔
      s.rest = tokensOf pieces ++ s'.rest ∧ s'.closed = s.closed ++ endedIn pieces ∧
        Backward s.closed pieces ∧
          ∀ body min max, .repeated body min max ∈ pieces → Allowed maxBound body min max := by
  induction pieces generalizing s with
  | nil =>
      obtain ⟨rest, closed⟩ := s
      obtain ⟨rest', closed'⟩ := s'
      simp only [Reads, ReadState.mk.injEq, tokensOf_nil, endedIn_nil, List.nil_append,
        List.append_nil]
      constructor
      · rintro ⟨rfl, rfl⟩
        exact ⟨rfl, rfl, backward_nil _, fun _ _ _ h => absurd h List.not_mem_nil⟩
      · rintro ⟨rfl, rfl, -⟩
        exact ⟨rfl, rfl⟩
  | cons piece pieces ih =>
      rw [backward_cons]
      cases piece with
      | token token =>
          obtain ⟨kind, position⟩ := token
          simp only [Reads, ih, tokensOf_token, endedIn_token, endedIn_nil, List.append_nil]
          constructor
          · rintro ⟨rest, hrest, hknown, hafter, hclosed, hback, hallowed⟩
            simp_all
          · rintro ⟨hrest, hclosed, ⟨hknown, hback⟩, hallowed⟩
            simp_all
      | ended name => simp [Reads, ih]
      | repeated body min max =>
          simp [Reads, ih]
          grind

end Grammar

end TreeRules
