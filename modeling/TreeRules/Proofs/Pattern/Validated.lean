/-
What a pattern that is accepted is sure to be.

The reader looks at a repetition when it has read its quantifier, and at a reference when it comes
to it; what is read later may put either deep into other patterns.  The pieces of a derivation
account for all parts of the pattern, so what was looked at then holds of all parts.

No more tokens are cut from a text than it has bytes, each accounts for two parts at most, and each
part is compiled to no more instructions than one repetition may be.  So the instructions of a
pattern of less than 2^40 bytes are counted in words of 64 bits, and no number is cut on the way.
-/
import TreeRules.Proofs.Matching.Code
import TreeRules.Proofs.Matching.Way
import TreeRules.Proofs.Pattern.Accounts
import TreeRules.Proofs.Pattern.Append
import TreeRules.Proofs.Text.Position

namespace TreeRules

open TreeRules.Text

/-! ### Tokens -/

namespace Token

variable {c : Char} {cs : List Char} {start min : Nat} {max : Option Nat} {token : Token}
  {taken : Taken Token} {tokens : List (Placed Token)}

theorem Begins.width_pos (h : Begins start c cs taken) : 0 < taken.width := by
  obtain ⟨part, hpart, hwidth⟩ := h.exists_part
  have hle := h.length_rest_le
  cases part with
  | nil =>
      rw [List.nil_append] at hpart
      rw [← hpart, List.length_cons] at hle
      omega
  | cons d part =>
      have hpos := d.utf8Size_pos
      rw [hwidth, byteWidth_cons]
      omega

/-- **Tokens stand one behind the other**, and there are no more of them than bytes. -/
theorem ordered_of_readFrom : ∀ (cs : List Char) {start : Nat} {tokens : List (Placed Token)},
    readFrom start cs = .ok tokens →
      tokens.Pairwise (fun token token' => token.position < token'.position) ∧
        tokens.length ≤ byteWidth cs
  | [], start, tokens, h => by
      rw [readFrom] at h
      obtain rfl := Except.ok.inj h
      exact ⟨List.Pairwise.nil, Nat.zero_le _⟩
  | c :: cs, start, tokens, h => by
      cases hblank : isBlank c with
      | true =>
          rw [readFrom, if_pos hblank] at h
          obtain ⟨hpairwise, hlength⟩ := ordered_of_readFrom cs h
          rw [byteWidth_cons]
          exact ⟨hpairwise, Nat.le_add_left_of_le hlength⟩
      | false =>
          obtain ⟨taken, more, hbegins, hmore, rfl⟩ := of_readFrom_cons_of_not_isBlank hblank h
          have hle := hbegins.length_rest_le
          have hwidth := hbegins.width_pos
          obtain ⟨hpairwise, hlength⟩ := ordered_of_readFrom taken.rest hmore
          refine ⟨List.Pairwise.cons (fun token hmem => ?_) hpairwise, ?_⟩
          · obtain ⟨before, d, after, taken', -, -, -, hposition⟩ :=
              exists_begins_of_mem taken.rest hmore token hmem
            show start < token.position
            omega
          · rw [hbegins.byteWidth_eq, List.length_cons]
            omega
  termination_by cs => cs.length

theorem takeNumber_lt {taken : Taken (Option Nat)} (h : takeNumber cs = .ok taken) {n : Nat}
    (hn : taken.value = some n) : n < Nat.pow 2 32 := by
  unfold takeNumber at h
  dsimp only at h
  split at h
  · obtain rfl := Except.ok.inj h
    cases hn
  · split at h
    · rename_i hlt
      obtain rfl := Except.ok.inj h
      obtain rfl := Option.some.inj hn
      exact hlt
    · cases h

/-- A number between braces fits into 32 bits. -/
theorem takeBraces_lt (h : takeBraces start cs = .ok taken)
    (hvalue : taken.value = .braces min max) :
    min < Nat.pow 2 32 ∧ max.getD min < Nat.pow 2 32 := by
  unfold takeBraces at h
  dsimp only at h
  split at h
  · cases h
  · cases h
  rename_i least width after hleast
  have hmin : least < Nat.pow 2 32 := takeNumber_lt hleast rfl
  split at h
  · split at h
    · cases h
    rename_i most hmost
    split at h
    · obtain rfl := Except.ok.inj h
      obtain ⟨rfl, rfl⟩ := Token.braces.inj hvalue
      refine ⟨hmin, ?_⟩
      cases hmax : most.value with
      | none => exact hmin
      | some n => exact takeNumber_lt hmost hmax
    · cases h
  · split at h
    · obtain rfl := Except.ok.inj h
      obtain ⟨rfl, rfl⟩ := Token.braces.inj hvalue
      exact ⟨hmin, hmin⟩
    · cases h

theorem ofChar?_ne_braces (h : ofChar? c = some token) : token ≠ .braces min max := by
  rintro rfl
  unfold ofChar? at h
  split at h <;> cases h

/-- The bounds of every quantifier of a text fit into 32 bits. -/
theorem bounds_lt_of_mem (h : readFrom start cs = .ok tokens) {position : Nat}
    (hmem : ⟨.braces min max, position⟩ ∈ tokens) :
    min < Nat.pow 2 32 ∧ max.getD min < Nat.pow 2 32 := by
  obtain ⟨before, c, after, taken, -, hbegins, hvalue, -⟩ := exists_begins_of_mem cs h _ hmem
  cases hbegins with
  | braces hbraces => exact takeBraces_lt hbraces hvalue
  | single hchar => exact absurd hvalue (ofChar?_ne_braces hchar)
  | doubleSlash | arrow | quoted | predicate | reference | word => cases hvalue

end Token

namespace Grammar

open Pattern

/-- Bounds that are not written as numbers are small. -/
theorem Quantifier.bounds_lt {quantifier : Quantifier} {limit : Nat} (hlimit : 1 < limit)
    (h : ∀ min max, quantifier.token = .braces min max → min < limit ∧ max.getD min < limit) :
    quantifier.min < limit ∧ quantifier.max.getD quantifier.min < limit := by
  cases quantifier with
  | optional => exact ⟨Nat.zero_lt_of_lt hlimit, hlimit⟩
  | star => exact ⟨Nat.zero_lt_of_lt hlimit, Nat.zero_lt_of_lt hlimit⟩
  | plus => exact ⟨hlimit, hlimit⟩
  | bounds min max => exact h min max rfl

/-- **Few pieces account for little code**, which can be counted in words. -/
theorem Accounts.countable {p : Pattern} {pieces : List Piece} (h : Accounts p.parts 1 pieces)
    (hshort : Short p.parts) (htokens : (tokensOf pieces).length < Nat.pow 2 40)
    (hbounded : ∀ body min max greedy, .repetition body min max greedy ∈ p.parts →
      min < Nat.pow 2 32 ∧ max.getD min < Nat.pow 2 32) : Countable p.parts where
  short := by
    intro q hq
    have hsublist := parts_sublist p hq
    have hcode := codeLength_le_parts q (hshort.of_subset hsublist.subset)
    have hparts : q.parts.length ≤ Nat.pow 2 41 := by
      have hfew := h.few
      have hle := hsublist.length_le
      have hpow : Nat.pow 2 41 = 2 * Nat.pow 2 40 := rfl
      omega
    calc q.codeLength + 2 ≤ maxCodeLength * q.parts.length := hcode
      _ ≤ maxCodeLength * Nat.pow 2 41 := Nat.mul_le_mul_left _ hparts
      _ ≤ wordMax := by decide
  bounded := by
    intro body min max greedy hmem
    obtain ⟨hmin, hmax⟩ := hbounded body min max greedy hmem
    have hword : Nat.pow 2 32 ≤ wordMax := by decide
    omega

end Grammar

namespace CompiledPattern

open Grammar Pattern

variable {text : String} {settings : Settings} {p : CompiledPattern}

/-- What holds of a repetition in a pattern that is accepted. -/
structure Limited (maxBound : Nat) (body : Pattern) (min : Nat) (max : Option Nat) (greedy : Bool) :
    Prop where
  min_le_max : ∀ bound, max = some bound → min ≤ bound
  /-- The greatest number of times is within the limit, or the least number if there is none. -/
  bound_le : max.getD min ≤ maxBound
  /-- The instructions are no more than one repetition may be compiled to, as counted in words. -/
  counted_le : (Pattern.repetition body min max greedy).cappedLength.value ≤ maxCodeLength
  /-- Every path through what is repeated without bound consumes a node. -/
  consumes : max = none → ∀ tests, Path body tests → tests ≠ []
  /-- So does every way that a search goes through it. -/
  advances : max = none → ∀ (s : Scene) names axis w w', w' ∈ s.mean names axis body w →
    w.log.length < w'.log.length

theorem Limited.of_allowed {maxBound : Nat} {body : Pattern} {min : Nat} {max : Option Nat}
    (h : Allowed maxBound body min max) (greedy : Bool) : Limited maxBound body min max greedy where
  min_le_max := h.min_le_max
  bound_le := by
    cases max with
    | none => exact h.min_le
    | some bound => exact h.max_le bound rfl
  counted_le := (cappedLength_le_iff _).mpr (h.short greedy)
  consumes hnone _ hpath := hpath.ne_nil body (h.consumes hnone)
  advances hnone s _ _ w w' hmem := s.length_lt_of_mem_mean body w w' (h.consumes hnone) hmem

/-- The references of a pattern are those of the text before an arrow, and each of them stands
behind the whole element of a capture of its name. -/
def RefersBack (text : String) (p : Pattern) : Prop :=
  ∃ d : Derivation, Token.readAll text = .ok d.tokens ∧ d.pattern = p ∧
    p.references = (tokensOf d.pieces).filterMap nameOf? ∧
    ∀ before name position after,
      d.pieces = before ++ .token ⟨.reference name, position⟩ :: after →
        ∃ front place colon element back,
          before = front ++ (Element.capture ⟨name, place⟩ colon element).pieces ++ back ∧
            .capture name element.pattern ∈ p.parts ∧
              ∀ token ∈ tokensOf (Element.capture ⟨name, place⟩ colon element).pieces,
                token.position < position

theorem refersBack_of_admissible {d : Derivation} {maxBound : Nat}
    (htokens : Token.readAll text = .ok d.tokens) (h : d.Admissible maxBound) :
    RefersBack text d.pattern := by
  refine ⟨d, htokens, rfl, d.accounts.references, ?_⟩
  intro before name position after heq
  obtain ⟨front, place, colon, element, back, rfl, hcapture⟩ :=
    d.accounts.exists_capture h.backward_pieces heq
  refine ⟨front, place, colon, element, back, rfl, hcapture, fun token hmem => ?_⟩
  have hordered := (Token.ordered_of_readFrom _ htokens).1
  rw [d.tokens_eq, heq, tokensOf_append, tokensOf_append, tokensOf_append,
    List.append_assoc] at hordered
  have hbefore := (List.pairwise_append.mp hordered).2.2
  exact hbefore token (by simp [hmem]) ⟨.reference name, position⟩ (by simp)

theorem countable_of_admissible {d : Derivation} {maxBound : Nat}
    (htokens : Token.readAll text = .ok d.tokens) (h : d.Admissible maxBound)
    (hsize : text.utf8ByteSize < Nat.pow 2 40) : Countable d.pattern.parts := by
  have hsubset : tokensOf d.pieces ⊆ d.tokens := by
    rw [d.tokens_eq]
    exact List.subset_append_left _ _
  have hfew : (tokensOf d.pieces).length < Nat.pow 2 40 := by
    have hlength := (Token.ordered_of_readFrom _ htokens).2
    rw [d.tokens_eq, List.length_append, ← utf8ByteSize_eq] at hlength
    omega
  refine d.accounts.countable ?_ hfew ?_
  · intro body min max greedy hmem
    obtain ⟨hpiece, -⟩ := d.accounts.repeated body min max greedy hmem
    exact (h.allowed body min max (Derivation.mem_pieces_of_repeated hpiece)).short greedy
  · intro body min max greedy hmem
    obtain ⟨-, quantifier, rfl, rfl, hquantifier⟩ := d.accounts.repeated body min max greedy hmem
    refine Quantifier.bounds_lt (by decide) fun min max htoken => ?_
    rw [Placed.map, htoken] at hquantifier
    exact Token.bounds_lt_of_mem htokens (hsubset hquantifier)

/-- **What is accepted is valid.**

However deep it lies, a repetition has its bounds in order and within the limit, is compiled to no
more instructions than one may be, and consumes a node in each round if there is no limit to them.
An anchor at the root is the first step of all.  A reference stands behind the element of a capture
of its name.  The program is as long as is counted in words of 64 bits, and one instruction more,
and no number is cut in the count. -/
theorem valid_of_read (h : read text settings = .ok p) (hsize : text.utf8ByteSize < Nat.pow 2 40) :
    (∀ body min max greedy, .repetition body min max greedy ∈ p.pattern.parts →
      Limited settings.maxBound body min max greedy) ∧
    (.anchor .root ∈ p.pattern.parts → ∃ body,
      p.pattern = .sequence [(none, .anchor .root), (none, body)] ∧ .anchor .root ∉ body.parts) ∧
    RefersBack text p.pattern ∧
    p.pattern.cappedLength.cut = false ∧
    p.program.instructions.size = p.pattern.cappedLength.value + 1 := by
  obtain ⟨d, htokens, hadmissible, rfl⟩ := exists_derivation_of_read h
  have hcount : d.pattern.cappedLength = ⟨d.pattern.codeLength, false⟩ :=
    cappedLength_eq d.pattern (countable_of_admissible htokens hadmissible hsize)
  refine ⟨?_, ?_, refersBack_of_admissible htokens hadmissible, ?_, ?_⟩
  · intro body min max greedy hmem
    obtain ⟨hpiece, -⟩ := d.accounts.repeated body min max greedy hmem
    have hallowed := hadmissible.allowed body min max (Derivation.mem_pieces_of_repeated hpiece)
    exact .of_allowed hallowed greedy
  · intro hroot
    exact ⟨d.branches.pattern, root_of_mem_leadPattern hroot⟩
  · exact congrArg Capped.cut hcount
  · show (Pattern.compile d.pattern).instructions.size = d.pattern.cappedLength.value + 1
    rw [hcount]
    simp [Pattern.compile, Pattern.length_code]

/-- A pattern with a limited repetition and one without limit, anchored at the root. -/
def anchoredAlike : CompiledPattern :=
  let pattern : Pattern := .sequence [(none, .anchor .root), (none, .sequence
    [(none, .capture "n" (.test .any)),
      (some .child, .repetition (.test (.literal "a")) 1 (some 2) true),
      (some .child, .repetition (.test (.literal "b")) 1 none true),
      (some .child, .test (.reference "n"))])]
  { source := "/n:. a{1,2} b+ $n", pattern, program := pattern.compile, template := none
    predicates := [] }

/-- Ten instructions are counted, and the program has one more. -/
theorem valid_of_read_anchoredAlike :
    read "/n:. a{1,2} b+ $n" {} = .ok anchoredAlike ∧
      Limited 1024 (.test (.literal "a")) 1 (some 2) true ∧
      Limited 1024 (.test (.literal "b")) 1 none true ∧
      (∃ body, anchoredAlike.pattern = .sequence [(none, .anchor .root), (none, body)] ∧
        .anchor .root ∉ body.parts) ∧
      RefersBack "/n:. a{1,2} b+ $n" anchoredAlike.pattern ∧
      anchoredAlike.pattern.references = ["n"] ∧
      anchoredAlike.pattern.cappedLength.value = 10 ∧
      anchoredAlike.program.instructions.size = 11 := by
  have hread : read "/n:. a{1,2} b+ $n" {} = .ok anchoredAlike := by cbv
  obtain ⟨hlimited, hroot, hback, -, hsize⟩ := valid_of_read hread (by decide)
  refine ⟨hread, hlimited _ _ _ _ ?_, hlimited _ _ _ _ ?_, hroot ?_, hback, rfl, rfl, hsize⟩
  · simp [anchoredAlike, parts, partsOfSteps]
  · simp [anchoredAlike, parts, partsOfSteps]
  · simp [anchoredAlike, parts, partsOfSteps]

end CompiledPattern

end TreeRules
