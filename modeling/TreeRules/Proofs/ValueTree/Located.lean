/-
Where tree texts are at fault.

In parenthesised text every piece stands where it was found, and a fault is told at a piece or at
the quote that opens a value which is never closed.  In indented text it is told at the start of a
line, at the quote that opens its value, or behind the quote that closes it.
-/
import TreeRules.Proofs.Text.Position
import TreeRules.Proofs.ValueTree.Grammar
import TreeRules.Proofs.ValueTree.Lines

namespace TreeRules.ValueTree

open TreeRules.Text

variable {cs : List Char} {start position : Nat} {e : FormatError}

/-! ### Parenthesised text -/

/-- Something stands there in a text that starts at `start`. -/
def StandsFrom (start : Nat) (cs : List Char) (position : Nat) : Prop :=
  ∃ place rest, position = start + place ∧ StandsAt cs place rest

theorem StandsFrom.behind {part rest : List Char}
    (h : StandsFrom (start + byteWidth part) rest position) :
    StandsFrom start (part ++ rest) position := by
  obtain ⟨place, after, rfl, before, rfl, rfl⟩ := h
  refine ⟨byteWidth (part ++ before), after, ?_, part ++ before, ?_, rfl⟩
  · rw [byteWidth_append]
    omega
  · rw [List.append_assoc]

theorem StandsFrom.here (start : Nat) (cs : List Char) : StandsFrom start cs start :=
  ⟨0, cs, rfl, .start cs⟩

/-- Every piece, or the fault, stands where it is told. -/
def Stand (start : Nat) (cs : List Char) : Except FormatError (List (Placed ParenToken)) → Prop
  | .ok tokens => ∀ token ∈ tokens, StandsFrom start cs token.position
  | .error e => ∃ position, e.position? = some position ∧ StandsFrom start cs position

/-- Behind a part of the text. -/
theorem Stand.behind (part : List Char) {rest : List Char}
    {x : Except FormatError (List (Placed ParenToken))}
    (h : Stand (start + byteWidth part) rest x) : Stand start (part ++ rest) x := by
  cases x with
  | ok tokens => exact fun token hmem => (h token hmem).behind
  | error e =>
      obtain ⟨position, he, hstands⟩ := h
      exact ⟨position, he, hstands.behind⟩

/-- One more piece in front. -/
theorem Stand.cons (token : ParenToken) (part : List Char) {rest : List Char}
    {x : Except FormatError (List (Placed ParenToken))}
    (h : Stand (start + byteWidth part) rest x) :
    Stand start (part ++ rest) (x >>= fun tokens => pure (⟨token, start⟩ :: tokens)) := by
  have hbehind := h.behind part
  cases x with
  | ok tokens =>
      show ∀ other ∈ ⟨token, start⟩ :: tokens, StandsFrom start (part ++ rest) other.position
      rw [List.forall_mem_cons]
      exact ⟨.here start _, hbehind⟩
  | error e => exact hbehind

/-- **Pieces and faults stand where they are told.** -/
theorem stand_parenTokens (start : Nat) (cs : List Char) :
    Stand start cs (parenTokens start cs) := by
  fun_induction parenTokens start cs with
  | case1 start => exact fun token hmem => absurd hmem (by simp)
  | case2 start c cs hblank ih => exact Stand.behind [c] ih
  | case3 start cs hblank ih => exact Stand.cons .openParen ['('] ih
  | case4 start cs hblank hopen ih => exact Stand.cons .closeParen [')'] ih
  | case5 start cs hnone => exact ⟨start, rfl, .here start _⟩
  | case6 start cs part hpart _ hblank hopen hclose ih =>
      obtain ⟨body, rfl, -, hwidth⟩ := readQuoted_eq_some_iff.mp hpart
      rw [hwidth, position_textAfterQuote] at ih ⊢
      have hcons := Stand.cons (.value (String.ofList part.value)) _ ih
      rwa [List.cons_append, List.append_assoc] at hcons
  | case7 start c cs hblank hopen hclose hquote bare _ ih =>
      have hcons := Stand.cons (.value (String.ofList bare)) bare ih
      rwa [List.cons_append, List.takeWhile_append_dropWhile] at hcons

theorem mem_bracket {positions : List Nat} {token : Placed ParenToken}
    (h : position ∈ bracket positions token) :
    position ∈ positions ∨ token.position = position := by
  unfold bracket at h
  split at h
  · rcases List.mem_cons.mp h with heq | h
    · exact .inr heq.symm
    · exact .inl h
  · exact .inl (List.mem_of_mem_tail h)
  · exact .inl h

/-- The parentheses that are open are among the pieces. -/
theorem exists_of_mem_openParens {tokens : List (Placed ParenToken)} {position : Nat}
    (h : position ∈ openParens tokens) : ∃ token ∈ tokens, token.position = position := by
  have hfold : ∀ (tokens : List (Placed ParenToken)) (positions : List Nat),
      position ∈ tokens.foldl bracket positions →
        position ∈ positions ∨ ∃ token ∈ tokens, token.position = position := by
    intro tokens
    induction tokens with
    | nil => exact fun positions hmem => .inl hmem
    | cons token tokens ih =>
        intro positions hmem
        rcases ih (bracket positions token) hmem with hmem | ⟨other, hother, heq⟩
        · rcases mem_bracket hmem with hmem | htoken
          · exact .inl hmem
          · exact .inr ⟨token, List.mem_cons_self, htoken⟩
        · exact .inr ⟨other, List.mem_cons_of_mem _ hother, heq⟩
  rcases hfold tokens [] h with hmem | htoken
  · cases hmem
  · exact htoken

/-- A fault is told at a piece. -/
theorem Fault.exists_token {tokens : List (Placed ParenToken)} (h : Fault tokens e)
    (hposition : e.position? = some position) : ∃ token ∈ tokens, token.position = position := by
  cases h with
  | empty => cases hposition
  | unclosed _ _ _ innermost =>
      obtain rfl := Option.some.inj hposition
      exact exists_of_mem_openParens (List.mem_of_mem_head? innermost)
  | @misplaced before after token split =>
      have htoken : token.position = position := by
        obtain ⟨value, place⟩ := token
        cases value <;> exact Option.some.inj hposition
      refine ⟨token, ?_, htoken⟩
      rw [split]
      simp

/-- **A parenthesised text is refused where something stands.** -/
theorem readParen_standsAt {text : String} (h : readParen text = .error e)
    (hposition : e.position? = some position) : ∃ rest, StandsAt text.toList position rest := by
  have hstand := stand_parenTokens 0 text.toList
  have hfrom : StandsFrom 0 text.toList position := by
    unfold readParen at h
    cases htokens : parenTokens 0 text.toList with
    | error e' =>
        rw [htokens] at h hstand
        obtain rfl := Except.error.inj h
        obtain ⟨place, hplace, hstands⟩ := hstand
        obtain rfl := Option.some.inj (hposition.symm.trans hplace)
        exact hstands
    | ok tokens =>
        rw [htokens] at h hstand
        obtain ⟨token, hmem, rfl⟩ := (fault_of_ofParenTokens h).exists_token hposition
        exact hstand token hmem
  obtain ⟨place, rest, hplace, hstands⟩ := hfrom
  rw [hplace, Nat.zero_add]
  exact ⟨rest, hstands⟩

/-! ### Indented text -/

/-- The text of a line stands behind the blanks that the line starts with. -/
theorem standsAt_of_mem_nodeLines {text : String} {line : NodeLine} (h : line ∈ nodeLines text) :
    (∃ rest, StandsAt text.toList line.position rest) ∧
      ∃ after, StandsAt text.toList (line.position + line.width) (line.text ++ after) := by
  obtain ⟨whole, hwhole, rfl⟩ := List.mem_map.mp (List.mem_of_mem_filter h)
  obtain ⟨after, hline⟩ := exists_of_mem_placedLines hwhole
  exact ⟨⟨_, hline⟩, standsAt_trimmedLine hwhole⟩

/-- **An indented text is refused where something stands.** -/
theorem readIndented_standsAt {text : String} (h : readIndented text = .error e)
    (hposition : e.position? = some position) : ∃ rest, StandsAt text.toList position rest := by
  rcases readIndented_eq_error_iff.mp h with ⟨-, rfl⟩ | ⟨i, hoffends, -⟩
  · cases hposition
  · cases hoffends with
    | @quote line _ here fault =>
        obtain ⟨-, after, htext⟩ := standsAt_of_mem_nodeLines (List.mem_of_getElem? here)
        generalize line.text = cs at fault htext
        cases fault with
        | unterminated =>
            obtain rfl := Option.some.inj hposition
            exact ⟨_, htext⟩
        | @textAfterQuote body value rest =>
            obtain rfl := Option.some.inj hposition
            have hsplit : '"' :: (body ++ '"' :: rest) ++ after =
                '"' :: (body ++ ['"']) ++ (rest ++ after) := by simp
            rw [hsplit] at htext
            exact ⟨_, htext.skip⟩
    | secondRoot here =>
        obtain ⟨hline, -⟩ := standsAt_of_mem_nodeLines (List.mem_of_getElem? here)
        obtain rfl := Option.some.inj hposition
        exact hline

end TreeRules.ValueTree
