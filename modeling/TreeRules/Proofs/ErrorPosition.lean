/-
Where errors are told.

Whatever reads a text, the position of its error is one where the text can be cut: something stands
there, or the text ends.  A rule is refused as its pattern is or for its missing template, and a
rule text as one of its lines, of which the position counts from where the line stands.
-/
import Mathlib
import TreeRules.Proofs.Pattern.Located
import TreeRules.Proofs.Rule.Lines
import TreeRules.Proofs.ValueTree.Located

namespace TreeRules

open TreeRules.Text

variable {text : String} {settings : Settings} {e : CompileError}

/-- A rule is refused as its pattern is, or at the end if it has no template. -/
theorem Rule.located {mode : Mode} (h : Rule.read text mode settings = .error e) :
    Located text e := by
  unfold Rule.read at h
  cases hpattern : CompiledPattern.read text settings with
  | error e' =>
      rw [hpattern] at h
      obtain rfl := Except.error.inj h
      exact CompiledPattern.located hpattern
  | ok pattern =>
      simp only [hpattern, bind, Except.bind] at h
      split at h
      · obtain rfl := Except.error.inj h
        exact .finish (utf8ByteSize_eq text).symm
      · cases h

/-- A rule text is refused where one of its lines is. -/
theorem Rule.readAll_standsAt (h : Rule.readAll text settings = .error e) :
    ∃ rest, StandsAt text.toList e.position rest := by
  rw [Rule.readAll_eq] at h
  obtain ⟨before, line, after, hsplit, -, hline⟩ := mapM_eq_error_iff.mp h
  obtain ⟨own, hown, rfl⟩ := Rule.readPlaced_eq_error_iff.mp hline
  have hmem : line ∈ Rule.ruleLines text := by
    rw [hsplit]
    simp
  obtain ⟨behind, hstands⟩ := Rule.standsAt_of_mem_ruleLines hmem
  obtain ⟨rest, hrest⟩ := (Rule.located hown).standsAt
  rw [String.toList_ofList] at hrest
  rw [CompileError.position_moveTo, Nat.add_comm]
  exact ⟨rest ++ behind, hstands.within hrest⟩

/-- A tree text is refused where something stands. -/
theorem TextFormat.read_standsAt {format : TextFormat} {e : FormatError} {position : Nat}
    (h : format.read text = .error e) (hposition : e.position? = some position) :
    ∃ rest, StandsAt text.toList position rest := by
  cases format with
  | paren => exact ValueTree.readParen_standsAt h hposition
  | indented => exact ValueTree.readIndented_standsAt h hposition

/-- **Where an error is told, the text can be cut.**

Whatever is read from a text, a pattern, a template, a rule, rules or a tree in either format, the
position that an error tells is no more than the length of the text and on the boundary of a
character.  A pattern, a template or a rule is refused where a token starts, where one is broken
off, at a character that starts none, or at the end. -/
theorem error_position_cuttable (text : String) (settings : Settings) :
    (∀ e, CompiledPattern.read text settings = .error e →
      Cuttable text e.position ∧ Located text e) ∧
    (∀ e, Template.read text = .error e → Cuttable text e.position ∧ Located text e) ∧
    (∀ mode e, Rule.read text mode settings = .error e →
      Cuttable text e.position ∧ Located text e) ∧
    (∀ e, Rule.readAll text settings = .error e → Cuttable text e.position) ∧
    (∀ (format : TextFormat) e position, format.read text = .error e →
      e.position? = some position → Cuttable text position) := by
  have hlocated : ∀ {e}, Located text e → Cuttable text e.position ∧ Located text e := by
    intro e h
    obtain ⟨rest, hstands⟩ := h.standsAt
    exact ⟨hstands.cuttable, h⟩
  refine ⟨?_, ?_, ?_, ?_, ?_⟩
  · exact fun e h => hlocated (CompiledPattern.located h)
  · exact fun e h => hlocated (Template.located h)
  · exact fun mode e h => hlocated (Rule.located h)
  · intro e h
    obtain ⟨rest, hstands⟩ := Rule.readAll_standsAt h
    exact hstands.cuttable
  · intro format e position h hposition
    obtain ⟨rest, hstands⟩ := TextFormat.read_standsAt h hposition
    exact hstands.cuttable

/-- A blank of three bytes and a letter of two stand before the quote that is never closed. -/
theorem error_position_cuttable_wide :
    (CompiledPattern.read "\u3000é \"" {} = .error (.malformed .unterminatedQuote 6) ∧
      Cuttable "\u3000é \"" 6) ∧
    (Rule.readAll "#é\n\u3000é -> \"" {} = .error (.malformed .unterminatedQuote 13) ∧
      Cuttable "#é\n\u3000é -> \"" 13) ∧
    (TextFormat.indented.read "\u3000é\n\u3000\"é\"é" = .error (.unexpected .textAfterQuote 13) ∧
      Cuttable "\u3000é\n\u3000\"é\"é" 13) := by
  have hpattern : CompiledPattern.read "\u3000é \"" {} =
      .error (.malformed .unterminatedQuote 6) := by cbv
  have hrules : Rule.readAll "#é\n\u3000é -> \"" {} =
      .error (.malformed .unterminatedQuote 13) := by cbv
  have htree : TextFormat.indented.read "\u3000é\n\u3000\"é\"é" =
      .error (.unexpected .textAfterQuote 13) := by rfl
  refine ⟨⟨hpattern, ?_⟩, ⟨hrules, ?_⟩, ⟨htree, ?_⟩⟩
  · exact ((error_position_cuttable _ {}).1 _ hpattern).1
  · exact (error_position_cuttable _ {}).2.2.2.1 _ hrules
  · exact (error_position_cuttable _ {}).2.2.2.2 .indented _ 13 htree rfl

end TreeRules
