/-
Values read back as they were written.

A quoted value is read back character by character, and reading stops at the quote that closes it.
A bare value holds nothing that would end it or be read as something else.
-/
import TreeRules.ValueTree.Literal

namespace TreeRules.ValueTree

open TreeRules.Text

variable {c : Char} {cs run rest : List Char} {p : Char → Bool}

/-! ### Runs of characters -/

theorem takeWhile_run (inside : ∀ c ∈ run, p c = true) (boundary : ∀ c ∈ rest.head?, p c = false) :
    (run ++ rest).takeWhile p = run := by
  rw [List.takeWhile_append_of_pos inside]
  cases rest with
  | nil => simp
  | cons c rest => simp [boundary c rfl]

theorem dropWhile_run (inside : ∀ c ∈ run, p c = true) (boundary : ∀ c ∈ rest.head?, p c = false) :
    (run ++ rest).dropWhile p = rest := by
  rw [List.dropWhile_append_of_pos inside]
  cases rest with
  | nil => rfl
  | cons c rest => simp [boundary c rfl]

/-! ### Quoted values -/

theorem readQuoted_backslash (c : Char) (cs : List Char) :
    readQuoted ('\\' :: c :: cs) = (readQuoted cs).map (·.cons (unescapeChar c) (1 + c.utf8Size)) := by
  rw [readQuoted]

theorem readQuoted_cons (hbackslash : c ≠ '\\') (cs : List Char) :
    readQuoted (c :: cs) =
      if c = '"' then some ⟨[], 1, cs⟩ else (readQuoted cs).map (·.cons c c.utf8Size) := by
  rw [readQuoted]
  · exact fun h => absurd h hbackslash
  · exact fun _ _ h => absurd h hbackslash

/-- A character is written with a backslash or as it is, and no line feed is written. -/
theorem escapeChar_cases (c : Char) :
    (∃ d, escapeChar c = ['\\', d] ∧ unescapeChar d = c ∧ d ≠ '\n') ∨
      (escapeChar c = [c] ∧ c ≠ '\\' ∧ c ≠ '"' ∧ c ≠ '\n') := by
  by_cases hn : c = '\n'
  · subst hn
    exact .inl ⟨'n', rfl, rfl, by decide⟩
  by_cases hr : c = '\r'
  · subst hr
    exact .inl ⟨'r', rfl, rfl, by decide⟩
  by_cases hquote : c = '"'
  · subst hquote
    exact .inl ⟨'"', rfl, rfl, by decide⟩
  by_cases hbackslash : c = '\\'
  · subst hbackslash
    exact .inl ⟨'\\', rfl, rfl, by decide⟩
  refine .inr ⟨?_, hbackslash, hquote, hn⟩
  rw [escapeChar, if_neg hn, if_neg hr, if_neg hquote, if_neg hbackslash]

/-- A character is read back from what it is written as. -/
theorem readQuoted_escapeChar (c : Char) (cs : List Char) :
    readQuoted (escapeChar c ++ cs) =
      (readQuoted cs).map (·.cons c (byteWidth (escapeChar c))) := by
  rcases escapeChar_cases c with ⟨d, hwrite, rfl, -⟩ | ⟨hwrite, hbackslash, hquote, -⟩
  · rw [hwrite]
    exact readQuoted_backslash d cs
  · rw [hwrite]
    exact (readQuoted_cons hbackslash cs).trans (if_neg hquote)

/-- **What stands between the quotes is read back, up to the quote that closes it.** -/
theorem readQuoted_escaped (cs rest : List Char) :
    readQuoted (cs.flatMap escapeChar ++ '"' :: rest) =
      some ⟨cs, byteWidth (cs.flatMap escapeChar) + 1, rest⟩ := by
  induction cs with
  | nil => exact (readQuoted_cons (by decide) rest).trans (if_pos rfl)
  | cons c cs ih =>
      rw [List.flatMap_cons, List.append_assoc, readQuoted_escapeChar, ih, byteWidth_append,
        Nat.add_assoc]
      rfl

/-! ### Bare values -/

theorem writeLiteral_of_needsQuotes (h : needsQuotes cs = true) (rest : List Char) :
    writeLiteral cs ++ rest = '"' :: (cs.flatMap escapeChar ++ '"' :: rest) := by
  rw [writeLiteral, if_pos h]
  simp

theorem writeLiteral_of_bare (h : needsQuotes cs = false) : writeLiteral cs = cs := by
  rw [writeLiteral, h, if_neg Bool.false_ne_true]

/-- A bare value has a first character, and no character of it ends a bare value. -/
theorem bare_iff : needsQuotes cs = false ↔
    cs ≠ [] ∧ ∀ c ∈ cs, endsBare c = false ∧ c ≠ '\\' := by
  simp [needsQuotes]

theorem isBlank_of_not_endsBare (h : endsBare c = false) : isBlank c = false := by
  simp only [endsBare, Bool.or_eq_false_iff] at h
  exact h.1.1.1

theorem ne_of_not_endsBare (h : endsBare c = false) : c ≠ '(' ∧ c ≠ ')' ∧ c ≠ '"' := by
  simp only [endsBare, Bool.or_eq_false_iff, beq_eq_false_iff_ne] at h
  exact ⟨h.1.1.2, h.1.2, h.2⟩

end TreeRules.ValueTree
