/-
Positions in a text, and what stands there.

A position counts the bytes before it.  `StandsAt` says what comes at a position, so it says of a
number that it is the position of something at all: a number in the middle of a character is none.
Each line stands where it was placed, and what is left of it without the blanks around it stands
behind the blanks that it starts with.
-/
import TreeRules.Text.Blank
import TreeRules.Text.Line

namespace TreeRules.Text

variable {cs part rest after : List Char} {position place : Nat}

theorem utf8ByteSize_eq (text : String) : text.utf8ByteSize = byteWidth text.toList := by
  have h : ∀ cs : List Char, (String.ofList cs).utf8ByteSize = byteWidth cs := by
    intro cs
    induction cs with
    | nil => simp
    | cons c cs ih =>
        have hsplit : String.ofList (c :: cs) = String.singleton c ++ String.ofList cs := by
          rw [String.singleton_eq_ofList, ← String.ofList_append]
          rfl
        rw [hsplit, String.utf8ByteSize_append, String.utf8ByteSize_singleton, ih, byteWidth_cons]
  rw [← h, String.ofList_toList]

/-- At that position of the text, `rest` is what comes. -/
def StandsAt (cs : List Char) (position : Nat) (rest : List Char) : Prop :=
  ∃ before, cs = before ++ rest ∧ position = byteWidth before

namespace StandsAt

theorem start (cs : List Char) : StandsAt cs 0 cs := ⟨[], rfl, rfl⟩

theorem finish (cs : List Char) : StandsAt cs (byteWidth cs) [] :=
  ⟨cs, (List.append_nil cs).symm, rfl⟩

/-- Behind a part stands what comes after it. -/
theorem skip (h : StandsAt cs position (part ++ rest)) :
    StandsAt cs (position + byteWidth part) rest := by
  obtain ⟨before, rfl, rfl⟩ := h
  exact ⟨before ++ part, by simp, by simp⟩

/-- What stands somewhere in a part of the text stands in the text. -/
theorem within (h : StandsAt cs position (part ++ after)) (hpart : StandsAt part place rest) :
    StandsAt cs (position + place) (rest ++ after) := by
  obtain ⟨before, rfl, rfl⟩ := hpart
  rw [List.append_assoc] at h
  exact h.skip

/-- **Where something stands, or the text ends, it can be cut.** -/
theorem isValid {text : String} (h : StandsAt text.toList position rest) :
    (String.Pos.Raw.mk position).IsValid text := by
  obtain ⟨before, htext, rfl⟩ := h
  rw [String.Pos.Raw.isValid_iff_exists_append]
  refine ⟨String.ofList before, String.ofList rest, ?_, ?_⟩
  · rw [← String.ofList_append, ← htext, String.ofList_toList]
  · rw [String.Pos.Raw.ext_iff]
    show byteWidth before = (String.ofList before).utf8ByteSize
    rw [utf8ByteSize_eq, String.toList_ofList]

end StandsAt

/-! ### Lines -/

theorem exists_of_mem_placeLines {lines : List (List Char)} {start : Nat}
    {line : Placed (List Char)} (h : line ∈ placeLines start lines) :
    ∃ place after, line.position = start + place ∧
      StandsAt lines.flatten place (line.value ++ after) := by
  induction lines generalizing start with
  | nil => simp [placeLines] at h
  | cons first lines ih =>
      rw [placeLines] at h
      rcases List.mem_cons.mp h with rfl | h
      · exact ⟨0, lines.flatten, rfl, .start _⟩
      · obtain ⟨place, after, hposition, before, hflatten, rfl⟩ := ih h
        refine ⟨byteWidth first + byteWidth before, after, by rw [hposition, Nat.add_assoc],
          first ++ before, ?_, by simp⟩
        rw [List.flatten_cons, hflatten, List.append_assoc]

/-- **A line stands where it was placed.** -/
theorem exists_of_mem_placedLines {line : Placed (List Char)} (h : line ∈ placedLines cs) :
    ∃ after, StandsAt cs line.position (line.value ++ after) := by
  obtain ⟨place, after, hposition, hstands⟩ := exists_of_mem_placeLines h
  rw [flatten_splitLines] at hstands
  rw [hposition, Nat.zero_add]
  exact ⟨after, hstands⟩

/-! ### Blanks around a text -/

/-- A text is the blanks that it starts with, what is left of it, and more blanks. -/
theorem exists_trim (cs : List Char) :
    ∃ ending, cs = cs.takeWhile isBlank ++ (trim cs ++ ending) ∧
      ∀ c ∈ ending, isBlank c = true := by
  refine ⟨((trimStart cs).reverse.takeWhile isBlank).reverse, ?_, ?_⟩
  · rw [trim, trimEnd, trimStart, ← List.reverse_append, trimStart,
      List.takeWhile_append_dropWhile, List.reverse_reverse, List.takeWhile_append_dropWhile]
  · intro c hc
    exact List.all_eq_true.mp List.all_takeWhile c (List.mem_reverse.mp hc)

/-- What is left without the blanks around it stands behind those that the text starts with. -/
theorem standsAt_trim (cs : List Char) :
    ∃ ending, StandsAt cs (byteWidth (cs.takeWhile isBlank)) (trim cs ++ ending) := by
  obtain ⟨ending, hcs, -⟩ := exists_trim cs
  exact ⟨ending, cs.takeWhile isBlank, hcs, rfl⟩

/-- A line without the blanks around it, where it stands then. -/
def trimmedLine (line : Placed (List Char)) : Placed (List Char) :=
  ⟨trim line.value, line.position + byteWidth (line.value.takeWhile isBlank)⟩

theorem standsAt_trimmedLine {line : Placed (List Char)} (h : line ∈ placedLines cs) :
    ∃ after, StandsAt cs (trimmedLine line).position ((trimmedLine line).value ++ after) := by
  obtain ⟨after, hline⟩ := exists_of_mem_placedLines h
  obtain ⟨ending, htrim⟩ := standsAt_trim line.value
  refine ⟨ending ++ after, ?_⟩
  rw [← List.append_assoc]
  exact hline.within htrim

end TreeRules.Text
