/-
The arrow of a rule needs no blanks around it.

A pattern and a template with an arrow between them are cut into the tokens of the pattern, the
arrow and the tokens of the template.  Blanks around the arrow make no difference but to the
positions, and what a rule does is not decided by these.

There is one exception.  A pattern may end in a dollar sign, which asks for a leaf.  With an arrow
right behind it the dollar sign is taken for a reference to an empty name, because the hyphen of the
arrow is a word character.  Only there does a name come out empty.  A capture is named by a word, so
no capture has that name and the text is refused.
-/
import Mathlib
import TreeRules.Proofs.Pattern.Declared
import TreeRules.Proofs.Rule.Unplaced

namespace TreeRules

open TreeRules.Text

namespace Token

variable {c : Char} {cs rest blanks blanks' : List Char} {start finish : Nat}
  {ps ts tokens : List (Placed Token)}

theorem cuts_blanks (hblanks : ∀ c ∈ blanks, isBlank c = true) (start : Nat) (rest : List Char) :
    Cuts start (blanks ++ rest) [] (start + byteWidth blanks) rest := by
  induction blanks generalizing start with
  | nil => exact .nil start rest
  | cons c blanks ih =>
      rw [List.forall_mem_cons] at hblanks
      rw [byteWidth_cons, ← Nat.add_assoc]
      exact .blank hblanks.1 (ih hblanks.2 _)

theorem cuts_arrow (start : Nat) (rest : List Char) :
    Cuts start ('-' :: '>' :: rest) [⟨.arrow, start⟩] (start + 2) rest :=
  .cons (by decide) (take_eq_ok_iff.mpr (.arrow rest)) (.nil _ _)

/-- The tokens of a text with an arrow and another text behind it. -/
def aroundArrow (ps ts : List (Placed Token)) (arrow more : Nat) : List (Placed Token) :=
  ps ++ ⟨.arrow, arrow⟩ :: ts.map (·.relocate (· + more))

/-- **Blanks or none around an arrow**, the tokens are those of the two texts and the arrow.  Only
a dollar sign at the end of the first text has to be kept away from it. -/
theorem readFrom_arrow (hcs : readFrom 0 cs = .ok ps) (hrest : readFrom 0 rest = .ok ts)
    (hlast : cs.getLast? = some '$' → blanks ≠ []) (hblanks : ∀ c ∈ blanks, isBlank c = true)
    (hblanks' : ∀ c ∈ blanks', isBlank c = true) :
    readFrom 0 (cs ++ (blanks ++ '-' :: '>' :: (blanks' ++ rest))) =
      .ok (aroundArrow ps ts (byteWidth cs + byteWidth blanks)
        (byteWidth cs + byteWidth blanks + 2 + byteWidth blanks')) := by
  have hstops : Stops (blanks ++ '-' :: '>' :: (blanks' ++ rest)) := by
    cases blanks with
    | nil => exact stops_arrow _
    | cons c blanks => exact stops_blank (hblanks c List.mem_cons_self) _
  have hfirst := cuts_append cs hcs hstops fun heq => by
    obtain ⟨c, blanks, rfl⟩ := List.exists_cons_of_ne_nil (hlast heq)
    simp [not_isWordChar_of_isBlank (hblanks c List.mem_cons_self)]
  rw [Nat.zero_add] at hfirst
  have hcuts := ((hfirst.append (cuts_blanks hblanks _ _)).append (cuts_arrow _ _)).append
    (cuts_blanks hblanks' _ rest)
  have hshifted := readFrom_relocate
    (byteWidth cs + byteWidth blanks + 2 + byteWidth blanks') rest hrest
  rw [Nat.zero_add] at hshifted
  have hall := hcuts.readFrom_append hshifted
  rw [List.append_nil, List.append_nil, List.append_assoc] at hall
  exact hall

/-- The dollar sign at the end of a text is taken for the start of a name. -/
theorem readFrom_dollar_arrow (hcs : readFrom 0 cs = .ok ps) (hrest : readFrom 0 rest = .ok ts)
    (hlast : cs.getLast? = some '$') :
    ∃ before, ps = before ++ [⟨.dollar, byteWidth cs - 1⟩] ∧
      readFrom 0 (cs ++ '-' :: '>' :: rest) =
        .ok (aroundArrow (before ++ [⟨.reference "", byteWidth cs - 1⟩]) ts (byteWidth cs)
          (byteWidth cs + 2)) := by
  obtain ⟨before, hbefore, hcuts⟩ := cuts_dollar_arrow cs hcs hlast
  rw [Nat.zero_add] at hbefore
  have hall := hcuts rest
  rw [Nat.zero_add] at hall
  have hshifted := readFrom_relocate (byteWidth cs + 2) rest hrest
  rw [Nat.zero_add] at hshifted
  have hread := (hall.append (cuts_arrow _ _)).readFrom_append hshifted
  rw [List.append_assoc] at hread
  exact ⟨before, hbefore, hread⟩

/-! ### Empty names -/

/-- A word is not empty, and the name of a reference is empty only before an arrow. -/
theorem Begins.empty_name {taken : Taken Token} (h : Begins start c cs taken) :
    taken.value ≠ .word "" ∧
      (taken.value = .reference "" → ∃ after, c :: cs = '$' :: '-' :: '>' :: after) := by
  cases h with
  | doubleSlash after | arrow after | quoted h | predicate h => simp
  | braces h =>
      obtain ⟨min, max, hvalue⟩ := exists_braces h
      simp [hvalue]
  | single h slash dollar =>
      exact ⟨ofChar?_ne_word h, fun hreference => absurd hreference (ofChar?_ne_reference h)⟩
  | word h hyphen => simp
  | reference h =>
      refine ⟨by simp, fun hreference => ?_⟩
      have hname : String.ofList (takeWord cs).value = "" := Token.reference.inj hreference
      have hnil : (takeWord cs).value = [] := by
        rw [← String.toList_ofList (l := (takeWord cs).value), hname]
        rfl
      obtain ⟨after, rfl, -⟩ := arrow_of_takeWord_nil h hnil
      exact ⟨after, rfl⟩

/-- **A word is never empty, and the name of a reference only where an arrow is right behind its
dollar sign.** -/
theorem of_empty_name (h : readFrom start cs = .ok tokens) {token : Placed Token}
    (hmem : token ∈ tokens) :
    token.value ≠ .word "" ∧ (token.value = .reference "" → ∃ before after,
      cs = before ++ '$' :: '-' :: '>' :: after ∧ token.position = start + byteWidth before) := by
  obtain ⟨before, c, after, taken, rfl, hbegins, hvalue, hposition⟩ :=
    exists_begins_of_mem cs h token hmem
  obtain ⟨hword, hreference⟩ := hbegins.empty_name
  rw [hvalue] at hword hreference
  refine ⟨hword, fun heq => ?_⟩
  obtain ⟨after', hafter⟩ := hreference heq
  exact ⟨before, after', by rw [hafter], hposition⟩

end Token

namespace Grammar

/-- A name that is referred to stands among the tokens as a word. -/
theorem Derivation.Admissible.exists_word {maxBound : Nat} {d : Derivation}
    (h : d.Admissible maxBound) {name : String} {position : Nat} (hname : name ≠ "0")
    (hmem : ⟨.reference name, position⟩ ∈ d.tokens) :
    ∃ position, ⟨.word name, position⟩ ∈ d.tokens := by
  have hended : name ∈ endedIn d.branches.pieces := by
    rw [Derivation.tokens, List.mem_append, List.mem_append] at hmem
    rcases hmem with hlead | hpattern | htemplate
    · obtain ⟨⟨lead, position'⟩, -, heq⟩ := List.mem_map.mp hlead
      have hlead : lead.token = .reference name := (Placed.mk.inj heq).1
      cases lead <;> cases hlead
    · obtain ⟨before, after, hsplit⟩ := List.append_of_mem (mem_pieces_of_mem_tokensOf hpattern)
      have hbefore := h.backward before name position after hsplit
      rw [hsplit, endedIn_append]
      exact List.mem_append_left _ hbefore
    · cases harrow : d.arrow with
      | none =>
          rw [harrow] at htemplate
          exact absurd htemplate (by simp [arrowTokens])
      | some arrow =>
          rw [harrow] at htemplate
          rcases List.mem_cons.mp htemplate with heq | hmem
          · cases heq
          · exact h.declared arrow name position harrow hmem hname
  obtain ⟨position', hword⟩ := worded_branches d.branches name hended
  refine ⟨position', ?_⟩
  rw [Derivation.tokens]
  exact List.mem_append_right _ (List.mem_append_left _ hword)

end Grammar

/-- **A text in which a reference has an empty name is refused**, as no capture can have that
name. -/
theorem CompiledPattern.read_ne_ok {text : String} {tokens : List (Placed Token)} {position : Nat}
    (h : Token.readAll text = .ok tokens) (hmem : ⟨.reference "", position⟩ ∈ tokens)
    (settings : Settings) (pattern : CompiledPattern) : read text settings ≠ .ok pattern := by
  intro hread
  obtain ⟨d, htokens, hadmissible, -⟩ := exists_derivation_of_read hread
  obtain rfl : tokens = d.tokens := Except.ok.inj (h.symm.trans htokens)
  obtain ⟨position', hword⟩ := hadmissible.exists_word (by decide) hmem
  exact (Token.of_empty_name h hword).1 rfl

namespace Rule

/-- The position that a token has once blanks stand around the arrow, which stands at `arrow`. -/
def spread (arrow blanks blanks' x : Nat) : Nat :=
  if x < arrow then x else if x < arrow + 2 then x + blanks else x + blanks + blanks'

/-- The position that it had before. -/
def gather (arrow blanks blanks' x : Nat) : Nat :=
  if x < arrow + blanks then x
  else if x < arrow + blanks + 2 then x - blanks else x - blanks - blanks'

theorem gather_spread (arrow blanks blanks' x : Nat) :
    gather arrow blanks blanks' (spread arrow blanks blanks' x) = x := by
  unfold gather spread
  split_ifs <;> omega

theorem aroundArrow_spread {ps ts : List (Placed Token)} {arrow : Nat} (blanks blanks' : Nat)
    (hps : ∀ token ∈ ps, token.position < arrow) :
    (Token.aroundArrow ps ts arrow (arrow + 2)).map (·.relocate (spread arrow blanks blanks')) =
      Token.aroundArrow ps ts (arrow + blanks) (arrow + blanks + 2 + blanks') := by
  have hbefore : ps.map (·.relocate (spread arrow blanks blanks')) = ps := by
    refine (List.map_congr_left fun token hmem => ?_).trans (List.map_id ps)
    show (⟨token.value, spread arrow blanks blanks' token.position⟩ : Placed Token) = token
    rw [spread, if_pos (hps token hmem)]
  have harrow : spread arrow blanks blanks' arrow = arrow + blanks := by
    unfold spread
    split_ifs <;> omega
  have hafter : (ts.map (·.relocate (· + (arrow + 2)))).map
      (·.relocate (spread arrow blanks blanks')) =
        ts.map (·.relocate (· + (arrow + blanks + 2 + blanks'))) := by
    rw [List.map_map]
    refine List.map_congr_left fun token _ => ?_
    show (⟨token.value, spread arrow blanks blanks' (token.position + (arrow + 2))⟩ :
      Placed Token) = ⟨token.value, token.position + (arrow + blanks + 2 + blanks')⟩
    congr 1
    unfold spread
    split_ifs <;> omega
  rw [Token.aroundArrow, Token.aroundArrow, List.map_append, List.map_cons, hbefore, hafter]
  show ps ++ ⟨.arrow, spread arrow blanks blanks' arrow⟩ :: _ = _
  rw [harrow]

theorem read_ne_ok {text : String} {settings : Settings}
    (h : ∀ pattern, CompiledPattern.read text settings ≠ .ok pattern) (mode : Mode) (rule : Rule) :
    read text mode settings ≠ .ok rule := by
  intro hread
  obtain ⟨pattern, hpattern, -⟩ := Pattern.ok_of_bind hread
  exact h pattern hpattern

variable {p t : String} {ps ts : List (Placed Token)}

theorem readAll_arrow (hp : Token.readAll p = .ok ps) (ht : Token.readAll t = .ok ts)
    (hlast : p.toList.getLast? ≠ some '$') :
    Token.readAll (p ++ "->" ++ t) =
      .ok (Token.aroundArrow ps ts (byteWidth p.toList) (byteWidth p.toList + 2)) := by
  have hnone : ∀ c ∈ ([] : List Char), isBlank c = true := by simp
  simpa [Token.readAll] using
    Token.readFrom_arrow hp ht (fun heq => absurd heq hlast) hnone hnone

/-- Blanks around an arrow make no difference to the rule but for positions. -/
theorem read_blanks (hp : Token.readAll p = .ok ps) (ht : Token.readAll t = .ok ts)
    (hlast : p.toList.getLast? ≠ some '$') {b b' : String} (hb : ∀ c ∈ b.toList, isBlank c = true)
    (hb' : ∀ c ∈ b'.toList, isBlank c = true) (mode : Mode) (settings : Settings) :
    (read (p ++ b ++ "->" ++ b' ++ t) mode settings).toOption.map unplaced =
      (read (p ++ "->" ++ t) mode settings).toOption.map unplaced := by
  have hspread : Token.readAll (p ++ b ++ "->" ++ b' ++ t) = .ok
      ((Token.aroundArrow ps ts (byteWidth p.toList) (byteWidth p.toList + 2)).map
        (·.relocate (spread (byteWidth p.toList) (byteWidth b.toList) (byteWidth b'.toList)))) := by
    rw [aroundArrow_spread _ _ fun token hmem => by simpa using Token.position_lt_of_mem hp hmem]
    simpa [Token.readAll] using
      Token.readFrom_arrow hp ht (fun heq => absurd heq hlast) hb hb'
  exact read_relocate mode settings (readAll_arrow hp ht hlast) hspread
    fun token _ => gather_spread _ _ _ _

/-- **The arrow of a rule needs no blanks around it, unless a dollar sign is right before it.**  The
tokens are those of the pattern, the arrow and those of the template, and with blanks around the
arrow the rule is the same but for positions.

A dollar sign right before the arrow is taken for a reference to an empty name, and the rule is
refused for it.  No other text gives an empty name, neither to a reference nor to a word. -/
theorem arrow_needs_no_blank (hp : Token.readAll p = .ok ps) (ht : Token.readAll t = .ok ts) :
    (p.toList.getLast? ≠ some '$' →
      Token.readAll (p ++ "->" ++ t) =
        .ok (Token.aroundArrow ps ts (byteWidth p.toList) (byteWidth p.toList + 2)) ∧
      ∀ b b' : String, (∀ c ∈ b.toList, isBlank c = true) → (∀ c ∈ b'.toList, isBlank c = true) →
        ∀ mode settings, (read (p ++ b ++ "->" ++ b' ++ t) mode settings).toOption.map unplaced =
          (read (p ++ "->" ++ t) mode settings).toOption.map unplaced) ∧
    (p.toList.getLast? = some '$' → ∃ before,
      ps = before ++ [⟨.dollar, byteWidth p.toList - 1⟩] ∧
      Token.readAll (p ++ "->" ++ t) =
        .ok (Token.aroundArrow (before ++ [⟨.reference "", byteWidth p.toList - 1⟩]) ts
          (byteWidth p.toList) (byteWidth p.toList + 2)) ∧
      ∀ mode settings rule, read (p ++ "->" ++ t) mode settings ≠ .ok rule) ∧
    ∀ text tokens, Token.readAll text = .ok tokens → ∀ token ∈ tokens,
      token.value ≠ .word "" ∧ (token.value = .reference "" → ∃ before after,
        text.toList = before ++ '$' :: '-' :: '>' :: after ∧
          token.position = byteWidth before) := by
  refine ⟨fun hlast => ⟨readAll_arrow hp ht hlast, fun b b' => read_blanks hp ht hlast⟩,
    fun hlast => ?_, fun text tokens h token hmem => ?_⟩
  · obtain ⟨before, hps, hread⟩ := Token.readFrom_dollar_arrow hp ht hlast
    have htokens : Token.readAll (p ++ "->" ++ t) =
        .ok (Token.aroundArrow (before ++ [⟨.reference "", byteWidth p.toList - 1⟩]) ts
          (byteWidth p.toList) (byteWidth p.toList + 2)) := by
      simpa [Token.readAll] using hread
    refine ⟨before, hps, htokens, fun mode settings rule => ?_⟩
    have hmem : ⟨.reference "", byteWidth p.toList - 1⟩ ∈
        Token.aroundArrow (before ++ [⟨.reference "", byteWidth p.toList - 1⟩]) ts
          (byteWidth p.toList) (byteWidth p.toList + 2) := by
      simp [Token.aroundArrow]
    exact read_ne_ok (CompiledPattern.read_ne_ok htokens hmem settings) mode rule
  · simpa using Token.of_empty_name h hmem

theorem arrow_needs_no_blank_wrapped :
    Token.readAll "x:a->b/$x" =
        .ok [⟨.word "x", 0⟩, ⟨.colon, 1⟩, ⟨.word "a", 2⟩, ⟨.arrow, 3⟩, ⟨.word "b", 5⟩, ⟨.slash, 6⟩,
          ⟨.reference "x", 7⟩] ∧
      ∀ mode settings, (read "x:a  -> b/$x" mode settings).toOption.map unplaced =
        (read "x:a->b/$x" mode settings).toOption.map unplaced := by
  have hp : Token.readAll "x:a" = .ok [⟨.word "x", 0⟩, ⟨.colon, 1⟩, ⟨.word "a", 2⟩] := by cbv
  have ht : Token.readAll "b/$x" = .ok [⟨.word "b", 0⟩, ⟨.slash, 1⟩, ⟨.reference "x", 2⟩] := by cbv
  obtain ⟨htokens, hblanks⟩ := (arrow_needs_no_blank hp ht).1 (by decide)
  have hb : ∀ c ∈ "  ".toList, isBlank c = true := by simp [show isBlank ' ' = true by decide]
  have hb' : ∀ c ∈ " ".toList, isBlank c = true := by simp [show isBlank ' ' = true by decide]
  exact ⟨htokens, hblanks "  " " " hb hb'⟩

/-- Not every arrow does without a blank: in `a$->b` the dollar sign, which asks for a leaf, is
taken together with the arrow. -/
theorem arrow_may_need_blank :
    ¬ ∀ (p t : String) (ps ts : List (Placed Token)), Token.readAll p = .ok ps →
      Token.readAll t = .ok ts → Token.readAll (p ++ "->" ++ t) =
        .ok (Token.aroundArrow ps ts (byteWidth p.toList) (byteWidth p.toList + 2)) := by
  intro h
  have hp : Token.readAll "a$" = .ok [⟨.word "a", 0⟩, ⟨.dollar, 1⟩] := by cbv
  have ht : Token.readAll "b" = .ok [⟨.word "b", 0⟩] := by cbv
  have hclose : Token.readAll "a$->b" =
      .ok [⟨.word "a", 0⟩, ⟨.reference "", 1⟩, ⟨.arrow, 2⟩, ⟨.word "b", 4⟩] := by cbv
  have htokens := hclose.symm.trans (h "a$" "b" _ _ hp ht)
  simp [Token.aroundArrow] at htokens

end Rule

end TreeRules
