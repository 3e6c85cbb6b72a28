/-
Indented text is read back as the tree that was written.

Every line that is written holds one node, and is read back as the value and the depth of that node
whether a line feed follows or not.  No line feed stands within a line, so the lines of the text
are the lines that were written.
-/
import Mathlib.Data.List.Forall2
import TreeRules.Document
import TreeRules.Proofs.Forest.Plant
import TreeRules.Proofs.ValueTree.Literal
import TreeRules.Proofs.ValueTree.Outline
import TreeRules.ValueTree.Format

namespace TreeRules.ValueTree

open TreeRules.Text

variable {cs line blanks ending : List Char}

/-! ### Lines -/

/-- A line with its line feed is split off the text. -/
theorem splitLines_append (h : '\n' ∉ line) (cs : List Char) :
    splitLines (line ++ '\n' :: cs) = (line ++ ['\n']) :: splitLines cs := by
  induction line with
  | nil => simp [splitLines]
  | cons c line ih =>
      have hc : c ≠ '\n' := fun heq => h (heq ▸ List.mem_cons_self)
      have hline : '\n' ∉ line := fun hmem => h (List.mem_cons_of_mem _ hmem)
      rw [List.cons_append, splitLines, if_neg hc, ih hline]
      rfl

theorem splitLines_of_not_mem (h : '\n' ∉ line) (hne : line ≠ []) : splitLines line = [line] := by
  induction line with
  | nil => exact absurd rfl hne
  | cons c line ih =>
      have hc : c ≠ '\n' := fun heq => h (heq ▸ List.mem_cons_self)
      have hline : '\n' ∉ line := fun hmem => h (List.mem_cons_of_mem _ hmem)
      rw [splitLines, if_neg hc]
      by_cases hnil : line = []
      · subst hnil
        rfl
      · rw [ih hline hnil]

/-! ### Blanks around a value -/

/-- The text neither starts nor ends with a blank, and there is some. -/
structure Solid (cs : List Char) : Prop where
  ne_nil : cs ≠ []
  first : ∀ c ∈ cs.head?, isBlank c = false
  last : ∀ c ∈ cs.getLast?, isBlank c = false

namespace Solid

theorem head?_append (h : Solid cs) (ending : List Char) :
    ∀ c ∈ (cs ++ ending).head?, isBlank c = false := by
  rw [List.head?_append_of_ne_nil _ h.ne_nil]
  exact h.first

/-- Blanks around a text are trimmed off, and nothing else is. -/
theorem trim (h : Solid cs) (hblanks : ∀ c ∈ blanks, isBlank c = true)
    (hending : ∀ c ∈ ending, isBlank c = true) : Text.trim (blanks ++ (cs ++ ending)) = cs := by
  have hreverse : ∀ c ∈ ending.reverse, isBlank c = true := by
    intro c hc
    exact hending c (List.mem_reverse.mp hc)
  have hlast : ∀ c ∈ cs.reverse.head?, isBlank c = false := by
    rw [List.head?_reverse]
    exact h.last
  rw [Text.trim, trimStart, dropWhile_run hblanks (h.head?_append ending), trimEnd, trimStart,
    List.reverse_append, dropWhile_run hreverse hlast, List.reverse_reverse]

end Solid

/-- A value as it is written neither starts nor ends with a blank. -/
theorem solid_writeLiteral (cs : List Char) : Solid (writeLiteral cs) := by
  cases hcs : needsQuotes cs with
  | true =>
      have hwrite := writeLiteral_of_needsQuotes hcs []
      rw [List.append_nil] at hwrite
      rw [hwrite]
      refine ⟨List.cons_ne_nil _ _, ?_, ?_⟩
      · intro c hc
        obtain rfl := Option.some.inj hc
        decide
      · intro c hc
        rw [← List.cons_append, List.getLast?_append] at hc
        obtain rfl := Option.some.inj hc
        decide
  | false =>
      obtain ⟨hne, hbare⟩ := bare_iff.mp hcs
      rw [writeLiteral_of_bare hcs]
      refine ⟨hne, fun c hc => ?_, fun c hc => ?_⟩
      · exact isBlank_of_not_endsBare (hbare c (List.mem_of_mem_head? hc)).1
      · exact isBlank_of_not_endsBare (hbare c (List.mem_of_mem_getLast? hc)).1

theorem newline_not_mem_escapeChar (c : Char) : '\n' ∉ escapeChar c := by
  rcases escapeChar_cases c with ⟨d, hwrite, -, hd⟩ | ⟨hwrite, -, -, hc⟩
  · rw [hwrite]
    simp [hd.symm]
  · rw [hwrite]
    simp [hc.symm]

/-- No line feed stands in a value as it is written. -/
theorem newline_not_mem_writeLiteral (cs : List Char) : '\n' ∉ writeLiteral cs := by
  cases hcs : needsQuotes cs with
  | true =>
      have hwrite := writeLiteral_of_needsQuotes hcs []
      rw [List.append_nil] at hwrite
      rw [hwrite]
      simp [newline_not_mem_escapeChar]
  | false =>
      rw [writeLiteral_of_bare hcs]
      intro hmem
      have hblank := isBlank_of_not_endsBare ((bare_iff.mp hcs).2 _ hmem).1
      exact absurd hblank (by decide)

/-! ### A line that has been written -/

theorem isBlank_of_mem_indentation {depth : Nat} : ∀ c ∈ indentation depth, isBlank c = true := by
  intro c hc
  obtain rfl := List.eq_of_mem_replicate hc
  decide

theorem byteWidth_indentation (depth : Nat) : byteWidth (indentation depth) = 4 * depth := by
  have hspaces : ∀ n, byteWidth (List.replicate n ' ') = n := by
    intro n
    induction n with
    | zero => rfl
    | succ n ih =>
        rw [List.replicate_succ, byteWidth_cons, ih, Nat.add_comm]
        rfl
  exact hspaces (4 * depth)

/-- A value as it is written is a line that is read back. -/
theorem readLine_writeLiteral (start : Nat) (cs : List Char) :
    readLine start (writeLiteral cs) = .ok (String.ofList cs) := by
  cases hcs : needsQuotes cs with
  | true =>
      have hwrite := writeLiteral_of_needsQuotes hcs []
      rw [List.append_nil] at hwrite
      rw [hwrite, readLine, readQuoted_escaped]
      rfl
  | false =>
      obtain ⟨hne, hbare⟩ := bare_iff.mp hcs
      rw [writeLiteral_of_bare hcs]
      unfold readLine
      split
      · exact absurd rfl (ne_of_not_endsBare (hbare '"' List.mem_cons_self).1).2.2
      · rfl

/-- The line says that a node of that depth and value comes next. -/
def Says (entry : Nat × String) (line : List Char) : Prop :=
  ∃ ending, (∀ c ∈ ending, isBlank c = true) ∧
    line = indentation entry.1 ++ (writeLiteral entry.2.toList ++ ending)

/-- A line that has been written is taken in as the node that it was written for. -/
theorem takeLine_of_says {entry : Nat × String} {line : Placed (List Char)}
    (h : Says entry line.value) {lines lines' : List OpenLine}
    (htake : takeNode (4 * ·) lines entry = some lines') :
    takeLine lines line = .ok lines' := by
  obtain ⟨ending, hending, hline⟩ := h
  have hsolid := solid_writeLiteral entry.2.toList
  have hempty : (writeLiteral entry.2.toList).isEmpty = false := by
    simpa using hsolid.ne_nil
  have hwidth : byteWidth (line.value.takeWhile isBlank) = 4 * entry.1 := by
    rw [hline, takeWhile_run isBlank_of_mem_indentation (hsolid.head?_append ending),
      byteWidth_indentation]
  have htrim : trim line.value = writeLiteral entry.2.toList := by
    rw [hline]
    exact hsolid.trim isBlank_of_mem_indentation hending
  have hvalue := readLine_writeLiteral (line.position + 4 * entry.1) entry.2.toList
  rw [String.ofList_toList] at hvalue
  unfold takeNode at htake
  unfold takeLine
  simp only [htrim, hempty, Bool.false_eq_true, if_false, hwidth, hvalue, bind, Except.bind, htake]
  rfl

/-- Lines that say of node after node what the outline says are taken in as the outline is. -/
theorem takeLines_of_says {entries : List (Nat × String)} {lines : List (List Char)}
    (h : List.Forall₂ Says entries lines) {stack stack' : List OpenLine}
    (htake : entries.foldlM (takeNode (4 * ·)) stack = some stack') (start : Nat) :
    (placeLines start lines).foldlM takeLine stack = .ok stack' := by
  induction h generalizing stack start with
  | nil =>
      obtain rfl := Option.some.inj htake
      rfl
  | @cons entry line entries lines hfirst _ ih =>
      rw [List.foldlM_cons] at htake
      obtain ⟨stack₁, hstack₁, hrest⟩ := Option.bind_eq_some_iff.mp htake
      have hline : takeLine stack ⟨line, start⟩ = .ok stack₁ := takeLine_of_says hfirst hstack₁
      rw [placeLines, List.foldlM_cons, hline]
      exact ih hrest _

/-- The line that is written for a node. -/
def writeLine (entry : Nat × String) : List Char :=
  indentation entry.1 ++ writeLiteral entry.2.toList

theorem newline_not_mem_writeLine (entry : Nat × String) : '\n' ∉ writeLine entry := by
  rw [writeLine, List.mem_append]
  rintro (hmem | hmem)
  · exact absurd (List.eq_of_mem_replicate hmem) (by decide)
  · exact newline_not_mem_writeLiteral _ hmem

theorem says_writeLine (entry : Nat × String) (hending : ∀ c ∈ ending, isBlank c = true) :
    Says entry (writeLine entry ++ ending) :=
  ⟨ending, hending, List.append_assoc _ _ _⟩

/-- **The lines of the text are the lines that were written.** -/
theorem says_splitLines (entries : List (Nat × String)) :
    List.Forall₂ Says entries (splitLines (['\n'].intercalate (entries.map writeLine))) := by
  induction entries with
  | nil => exact .nil
  | cons entry entries ih =>
      have hline := newline_not_mem_writeLine entry
      cases entries with
      | nil =>
          have hne : writeLine entry ≠ [] := by
            simp [writeLine, (solid_writeLiteral entry.2.toList).ne_nil]
          have hsays : Says entry (writeLine entry ++ []) := says_writeLine entry (by simp)
          rw [List.append_nil] at hsays
          rw [List.map_singleton, List.intercalate_singleton, splitLines_of_not_mem hline hne]
          exact .cons hsays .nil
      | cons entry' entries =>
          have hfeed : ∀ c ∈ ['\n'], isBlank c = true := by
            intro c hc
            obtain rfl := List.mem_singleton.mp hc
            decide
          have hsays := says_writeLine entry hfeed
          rw [List.map_cons, List.map_cons, List.intercalate_cons_cons, List.append_assoc,
            List.singleton_append, splitLines_append hline]
          exact .cons hsays ih

/-- **A tree that is written in indented text is read back**, with every value as it was, and the
nodes made of it look like it. -/
theorem read_write_indented (tree : ValueTree) :
    TextFormat.indented.read (TextFormat.indented.write tree) = .ok tree ∧
      (Document.ofTree tree).tree = tree := by
  have hclose : (tree.outline.foldlM (takeNode (4 * ·)) []).bind OpenLine.closeAll = some tree :=
    closeAll_outline (fun depth => by omega) tree
  obtain ⟨stack, hstack, hall⟩ := Option.bind_eq_some_iff.mp hclose
  have hlines := takeLines_of_says (says_splitLines tree.outline) hstack 0
  refine ⟨?_, Forest.tree_ofTree tree⟩
  show readIndented (String.ofList (['\n'].intercalate (tree.outline.map writeLine))) = .ok tree
  rw [readIndented, String.toList_ofList, placedLines, hlines]
  simp only [bind, Except.bind, hall]
  rfl

end TreeRules.ValueTree
