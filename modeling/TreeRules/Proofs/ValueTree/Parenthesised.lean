/-
Parenthesised text is read back as the tree that was written.

The written text is cut into tokens that spell the tree, whatever positions it is counted from, so
the rest is what the grammar says of reading.  A bare value is one token because what follows it
ends a bare value: a blank, a parenthesis or the end of the text.
-/
import TreeRules.Document
import TreeRules.Proofs.Forest.Plant
import TreeRules.Proofs.ValueTree.Grammar
import TreeRules.Proofs.ValueTree.Literal
import TreeRules.ValueTree.Format

namespace TreeRules.ValueTree

open TreeRules.Text

variable {c : Char} {cs rest : List Char} {kinds : List ParenToken}

/-- The text is cut into these tokens, wherever it starts. -/
def CutInto (cs : List Char) (kinds : List ParenToken) : Prop :=
  ∀ start, ∃ tokens, parenTokens start cs = .ok tokens ∧ tokens.map (·.value) = kinds

/-- A bare value may stand before the text: it is empty, or starts with what ends one. -/
def Delimited (cs : List Char) : Prop := ∀ c ∈ cs.head?, endsBare c = true

theorem delimited_nil : Delimited [] := by
  intro c hc
  exact absurd hc (by simp)

theorem delimited_cons (h : endsBare c = true) (cs : List Char) : Delimited (c :: cs) := by
  intro d hd
  obtain rfl := Option.some.inj hd
  exact h

theorem delimited_writeParens (trees : List ValueTree) (hrest : Delimited rest) :
    Delimited (writeParens trees ++ rest) := by
  cases trees with
  | nil => rwa [writeParens]
  | cons tree trees =>
      rw [writeParens]
      exact delimited_cons (by decide) _

theorem cutInto_nil : CutInto [] [] := by
  intro start
  refine ⟨[], ?_, rfl⟩
  rw [parenTokens]

theorem CutInto.blank (h : CutInto cs kinds) (hblank : isBlank c = true) :
    CutInto (c :: cs) kinds := by
  intro start
  obtain ⟨tokens, htokens, hkinds⟩ := h (start + c.utf8Size)
  refine ⟨tokens, ?_, hkinds⟩
  rw [parenTokens, if_pos hblank, htokens]

theorem CutInto.openParen (h : CutInto cs kinds) : CutInto ('(' :: cs) (.openParen :: kinds) := by
  intro start
  obtain ⟨tokens, htokens, rfl⟩ := h (start + 1)
  refine ⟨⟨.openParen, start⟩ :: tokens, ?_, rfl⟩
  rw [parenTokens, if_neg (by decide), if_pos rfl, htokens]
  rfl

theorem CutInto.closeParen (h : CutInto cs kinds) : CutInto (')' :: cs) (.closeParen :: kinds) := by
  intro start
  obtain ⟨tokens, htokens, rfl⟩ := h (start + 1)
  refine ⟨⟨.closeParen, start⟩ :: tokens, ?_, rfl⟩
  rw [parenTokens, if_neg (by decide), if_neg (by decide), if_pos rfl, htokens]
  rfl

/-- A value between quotes is one token. -/
theorem CutInto.quoted (h : CutInto rest kinds) (cs : List Char) :
    CutInto ('"' :: (cs.flatMap escapeChar ++ '"' :: rest))
      (.value (String.ofList cs) :: kinds) := by
  intro start
  obtain ⟨tokens, htokens, rfl⟩ :=
    h (start + 1 + (byteWidth (cs.flatMap escapeChar) + 1))
  refine ⟨⟨.value (String.ofList cs), start⟩ :: tokens, ?_, rfl⟩
  rw [parenTokens, if_neg (by decide), if_neg (by decide), if_neg (by decide), if_pos rfl]
  split
  · rename_i hnone
    rw [readQuoted_escaped] at hnone
    exact absurd hnone (by simp)
  · rename_i part hpart
    rw [readQuoted_escaped] at hpart
    obtain rfl := Option.some.inj hpart
    show (parenTokens (start + 1 + _) rest >>= _) = _
    rw [htokens]
    rfl

/-- A bare value is one token if the text after it ends it. -/
theorem CutInto.bare (h : CutInto rest kinds) (hrest : Delimited rest)
    (hcs : needsQuotes cs = false) :
    CutInto (cs ++ rest) (.value (String.ofList cs) :: kinds) := by
  intro start
  obtain ⟨hne, hbare⟩ := bare_iff.mp hcs
  obtain ⟨c, cs, rfl⟩ := List.exists_cons_of_ne_nil hne
  obtain ⟨hc, hcs⟩ := List.forall_mem_cons.mp hbare
  obtain ⟨hopen, hclose, hquote⟩ := ne_of_not_endsBare hc.1
  have inside : ∀ c ∈ cs, (!endsBare c) = true := by
    intro c hmem
    simp [(hcs c hmem).1]
  have boundary : ∀ c ∈ rest.head?, (!endsBare c) = false := by
    intro c hmem
    simp [hrest c hmem]
  obtain ⟨tokens, htokens, rfl⟩ := h (start + byteWidth (c :: cs))
  refine ⟨⟨.value (String.ofList (c :: cs)), start⟩ :: tokens, ?_, rfl⟩
  rw [List.cons_append, parenTokens, if_neg (by simp [isBlank_of_not_endsBare hc.1]),
    if_neg hopen, if_neg hclose, if_neg hquote,
    takeWhile_run inside boundary]
  dsimp only
  rw [dropWhile_run inside boundary, htokens]
  rfl

/-- **A value as it is written is one token.** -/
theorem CutInto.literal (h : CutInto rest kinds) (hrest : Delimited rest) (cs : List Char) :
    CutInto (writeLiteral cs ++ rest) (.value (String.ofList cs) :: kinds) := by
  cases hcs : needsQuotes cs with
  | true =>
      rw [writeLiteral_of_needsQuotes hcs]
      exact h.quoted cs
  | false =>
      rw [writeLiteral_of_bare hcs]
      exact h.bare hrest hcs

mutual

/-- **A tree as it is written is cut into tokens that spell it.** -/
theorem exists_spells_cutInto : ∀ (tree : ValueTree) {rest : List Char} {kinds : List ParenToken},
    CutInto rest kinds → Delimited rest →
    ∃ spelling, Spells spelling tree ∧ CutInto (tree.writeParen ++ rest) (spelling ++ kinds)
  | .node value [], rest, kinds, h, hrest => by
      refine ⟨_, .leaf value, ?_⟩
      rw [writeParen]
      have hvalue := h.literal hrest value.toList
      rwa [String.ofList_toList] at hvalue
  | .node value (child :: children), rest, kinds, h, hrest => by
      have hclose : Delimited (')' :: rest) := delimited_cons (by decide) rest
      obtain ⟨others, hothers, hcut⟩ := exists_spellsAll_cutInto children h.closeParen hclose
      obtain ⟨first, hfirst, hcut⟩ :=
        exists_spells_cutInto child hcut (delimited_writeParens children hclose)
      refine ⟨_, .branch value (.cons hfirst hothers), ?_⟩
      have hopen := hcut.openParen.blank (show isBlank ' ' = true by decide)
      have hvalue := hopen.literal (delimited_cons (by decide) _) value.toList
      rw [String.ofList_toList] at hvalue
      rw [writeParen]
      simpa using hvalue

/-- Trees written side by side are cut into tokens that spell them one after another. -/
theorem exists_spellsAll_cutInto : ∀ (trees : List ValueTree) {rest : List Char}
    {kinds : List ParenToken}, CutInto rest kinds → Delimited rest →
    ∃ spelling, SpellsAll spelling trees ∧ CutInto (writeParens trees ++ rest) (spelling ++ kinds)
  | [], rest, kinds, h, _ => by
      rw [writeParens]
      exact ⟨[], .nil, h⟩
  | tree :: trees, rest, kinds, h, hrest => by
      obtain ⟨others, hothers, hcut⟩ := exists_spellsAll_cutInto trees h hrest
      obtain ⟨first, hfirst, hcut⟩ :=
        exists_spells_cutInto tree hcut (delimited_writeParens trees hrest)
      refine ⟨_, .cons hfirst hothers, ?_⟩
      rw [writeParens]
      simpa using hcut.blank (show isBlank ' ' = true by decide)

end

/-- **A tree that is written in parenthesised text is read back**, with every value as it was, and
the nodes made of it look like it. -/
theorem read_write_paren (tree : ValueTree) :
    TextFormat.paren.read (TextFormat.paren.write tree) = .ok tree ∧
      (Document.ofTree tree).tree = tree := by
  obtain ⟨spelling, hspells, hcut⟩ := exists_spells_cutInto tree cutInto_nil delimited_nil
  obtain ⟨tokens, htokens, hkinds⟩ := hcut 0
  rw [List.append_nil] at htokens hkinds
  rw [← hkinds] at hspells
  refine ⟨?_, Forest.tree_ofTree tree⟩
  show readParen tree.paren = .ok tree
  rw [readParen, ValueTree.paren, String.toList_ofList, htokens]
  exact ofParenTokens_of_spells hspells

end TreeRules.ValueTree
