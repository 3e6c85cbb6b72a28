/-
What is cut off a text does not depend on what is put behind it.

A text that can be cut into tokens is cut into the same tokens when something is put behind it that
carries on no token: a blank, or an arrow.  `Stops` says of a text what that takes.  The one token
that an arrow does carry on is a dollar sign at the very end, because the hyphen of the arrow is a
word character: there a name is taken, which is empty as a name stops before an arrow.

So it is shown for each kind of token that it takes a part of the text, that its width is that of
the part, and that it takes the same when `Stops` holds of what is put behind.
-/
import TreeRules.Proofs.Pattern.Cut

namespace TreeRules

/-- The same piece at another place. -/
def Text.Placed.relocate {α : Type} (place : Nat → Nat) (piece : Placed α) : Placed α :=
  ⟨piece.value, place piece.position⟩

namespace Token

open TreeRules.Text

variable {c : Char} {cs rest more : List Char} {start start' finish : Nat} {token : Token}

/-- The text carries on no word that stands before it, and makes no other token of a slash or a
hyphen there. -/
structure Stops (rest : List Char) : Prop where
  word : takeWord rest = ⟨[], 0, rest⟩
  up : rest.head? ≠ some '>'
  slash : rest.head? ≠ some '/'

theorem stops_nil : Stops [] := ⟨rfl, by simp, by simp⟩

theorem stops_blank (h : isBlank c = true) (rest : List Char) : Stops (c :: rest) where
  word := by
    rw [takeWord, if_neg (by simp [not_isWordChar_of_isBlank h])]
  up := by
    rintro heq
    obtain rfl := Option.some.inj heq
    exact absurd h (by decide)
  slash := by
    rintro heq
    obtain rfl := Option.some.inj heq
    exact absurd h (by decide)

theorem stops_arrow (rest : List Char) : Stops ('-' :: '>' :: rest) where
  word := by rw [takeWord, if_neg (by simp)]
  up := by simp
  slash := by simp

/-- What was taken, with more text behind it. -/
def behind {α : Type} (rest : List Char) (taken : Taken α) : Taken α :=
  { taken with rest := taken.rest ++ rest }

@[simp] theorem behind_value {α : Type} (rest : List Char) (taken : Taken α) :
    (behind rest taken).value = taken.value := rfl

@[simp] theorem behind_rest {α : Type} (rest : List Char) (taken : Taken α) :
    (behind rest taken).rest = taken.rest ++ rest := rfl

/-! ### Words -/

theorem takeWord_append (h : Stops rest) (cs : List Char) :
    takeWord (cs ++ rest) = behind rest (takeWord cs) := by
  induction cs with
  | nil => exact h.word
  | cons c cs ih =>
      have hhead : ((cs ++ rest).head? == some '>') = (cs.head? == some '>') := by
        cases cs with
        | nil => exact beq_eq_false_iff_ne.mpr h.up
        | cons d cs => rfl
      rw [List.cons_append, takeWord, takeWord, hhead, ih]
      split <;> rfl

theorem takeWord_eq (cs : List Char) :
    cs = (takeWord cs).value ++ (takeWord cs).rest ∧
      (takeWord cs).width = byteWidth (takeWord cs).value := by
  induction cs with
  | nil => exact ⟨rfl, rfl⟩
  | cons c cs ih =>
      rw [takeWord]
      split
      · refine ⟨congrArg (c :: ·) ih.1, ?_⟩
        rw [Taken.cons, byteWidth_cons, ih.2]
      · exact ⟨rfl, rfl⟩

/-! ### Quoted texts and predicates -/

theorem takeQuoted_append {taken : Taken (List Char)} (h : takeQuoted cs = some taken)
    (rest : List Char) : takeQuoted (cs ++ rest) = some (behind rest taken) := by
  fun_induction takeQuoted cs generalizing taken with
  | case1 => simp at h
  | case2 => simp at h
  | case3 c cs ih =>
      obtain ⟨inner, hinner, rfl⟩ := Option.map_eq_some_iff.mp h
      rw [List.cons_append, List.cons_append, takeQuoted, ih hinner]
      rfl
  | case4 cs =>
      obtain rfl := Option.some.inj h
      rfl
  | case5 c cs hescaped hlast hquote ih =>
      obtain ⟨inner, hinner, rfl⟩ := Option.map_eq_some_iff.mp h
      have hbackslash : c ≠ '\\' := by
        rintro rfl
        cases cs with
        | nil => exact hescaped rfl rfl
        | cons d cs => exact hlast d cs rfl rfl
      rw [List.cons_append, takeQuoted]
      · rw [if_neg hquote, ih hinner]
        rfl
      · exact fun heq => absurd heq hbackslash
      · exact fun _ _ heq => absurd heq hbackslash

/-- A quoted text goes up to the quote that closes it. -/
theorem of_takeQuoted {taken : Taken (List Char)} (h : takeQuoted cs = some taken) :
    ∃ part, cs = part ++ '"' :: taken.rest ∧ taken.width = byteWidth part + 1 := by
  fun_induction takeQuoted cs generalizing taken with
  | case1 => simp at h
  | case2 => simp at h
  | case3 c cs ih =>
      obtain ⟨inner, hinner, rfl⟩ := Option.map_eq_some_iff.mp h
      obtain ⟨part, hpart, hwidth⟩ := ih hinner
      refine ⟨'\\' :: c :: part, ?_, ?_⟩
      · rw [hpart]
        rfl
      · simp only [Taken.cons, byteWidth_cons, hwidth]
        show 1 + c.utf8Size + (byteWidth part + 1) = 1 + (c.utf8Size + byteWidth part) + 1
        omega
  | case4 cs =>
      obtain rfl := Option.some.inj h
      exact ⟨[], rfl, rfl⟩
  | case5 c cs _ _ _ ih =>
      obtain ⟨inner, hinner, rfl⟩ := Option.map_eq_some_iff.mp h
      obtain ⟨part, hpart, hwidth⟩ := ih hinner
      refine ⟨c :: part, ?_, ?_⟩
      · rw [hpart]
        rfl
      · simp only [Taken.cons, byteWidth_cons, hwidth]
        omega

/-- Where a run of characters has come to an end, nothing behind it is part of it. -/
theorem while_append {p : Char → Bool} (h : cs.dropWhile p ≠ []) (rest : List Char) :
    (cs ++ rest).takeWhile p = cs.takeWhile p ∧
      (cs ++ rest).dropWhile p = cs.dropWhile p ++ rest := by
  induction cs with
  | nil => exact absurd rfl h
  | cons c cs ih =>
      rw [List.cons_append, List.takeWhile_cons, List.takeWhile_cons, List.dropWhile_cons,
        List.dropWhile_cons]
      rw [List.dropWhile_cons] at h
      cases hc : p c with
      | false => exact ⟨rfl, rfl⟩
      | true =>
          rw [if_pos hc] at h
          obtain ⟨htake, hdrop⟩ := ih h
          exact ⟨congrArg (c :: ·) htake, hdrop⟩

theorem takePredicate_append {taken : Taken (List Char)} (h : takePredicate cs = .ok taken)
    (rest : List Char) : takePredicate (cs ++ rest) = .ok (behind rest taken) := by
  unfold takePredicate at h ⊢
  dsimp only at h ⊢
  split at h
  · exact absurd h (by simp)
  · rename_i closing after hdrop
    have hne : cs.dropWhile (· != ']') ≠ [] := by
      rw [hdrop]
      simp
    obtain ⟨htake', hdrop'⟩ := while_append hne rest
    rw [htake', hdrop', hdrop, List.cons_append]
    dsimp only
    split at h
    · exact absurd h (by simp)
    · rename_i hname
      obtain rfl := Except.ok.inj h
      rw [if_neg hname]
      rfl

theorem of_takePredicate {taken : Taken (List Char)} (h : takePredicate cs = .ok taken) :
    ∃ part, cs = part ++ ']' :: taken.rest ∧ taken.width = byteWidth part + 1 := by
  unfold takePredicate at h
  dsimp only at h
  split at h
  · exact absurd h (by simp)
  · rename_i closing after hdrop
    split at h
    · exact absurd h (by simp)
    · obtain rfl := Except.ok.inj h
      obtain rfl : closing = ']' := by
        have hnot := List.head?_dropWhile_not (· != ']') cs
        rw [hdrop] at hnot
        simpa using hnot
      refine ⟨cs.takeWhile (· != ']'), ?_, rfl⟩
      rw [← hdrop]
      exact List.takeWhile_append_dropWhile.symm

/-! ### Bounds -/

theorem takeBlanks_append (h : (takeBlanks cs).rest ≠ []) (rest : List Char) :
    takeBlanks (cs ++ rest) = behind rest (takeBlanks cs) := by
  obtain ⟨htake, hdrop⟩ := while_append h rest
  rw [takeBlanks, htake, hdrop]
  rfl

theorem takeBlanks_eq (cs : List Char) :
    ∃ part, cs = part ++ (takeBlanks cs).rest ∧ (takeBlanks cs).width = byteWidth part :=
  ⟨cs.takeWhile isBlank, List.takeWhile_append_dropWhile.symm, rfl⟩

theorem takeNumber_rest {taken : Taken (Option Nat)} (h : takeNumber cs = .ok taken) :
    taken.rest = cs.dropWhile Char.isDigit := by
  unfold takeNumber at h
  dsimp only at h
  split at h
  · obtain rfl := Except.ok.inj h
    rfl
  · split at h
    · obtain rfl := Except.ok.inj h
      rfl
    · exact absurd h (by simp)

theorem takeNumber_append {taken : Taken (Option Nat)} (h : takeNumber cs = .ok taken)
    (hne : taken.rest ≠ []) (rest : List Char) :
    takeNumber (cs ++ rest) = .ok (behind rest taken) := by
  rw [takeNumber_rest h] at hne
  obtain ⟨htake, hdrop⟩ := while_append hne rest
  unfold takeNumber at h ⊢
  dsimp only at h ⊢
  rw [htake, hdrop]
  split at h
  · rename_i hempty
    obtain rfl := Except.ok.inj h
    rw [if_pos hempty]
    rfl
  · rename_i hempty
    split at h
    · rename_i hlt
      obtain rfl := Except.ok.inj h
      rw [if_neg hempty, if_pos hlt]
      rfl
    · exact absurd h (by simp)

/-- A digit is one byte wide. -/
theorem byteWidth_digits {digits : List Char} (h : ∀ c ∈ digits, c.isDigit = true) :
    byteWidth digits = digits.length := by
  induction digits with
  | nil => rfl
  | cons c digits ih =>
      rw [List.forall_mem_cons] at h
      have hc : c.utf8Size = 1 := by
        have hle : c.val ≤ 57 := by
          have := h.1
          simp only [Char.isDigit, Bool.and_eq_true, decide_eq_true_eq] at this
          exact this.2
        exact Char.utf8Size_eq_one_iff.mpr (UInt32.le_trans hle (by decide))
      rw [byteWidth_cons, hc, ih h.2, List.length_cons, Nat.add_comm]

theorem takeNumber_eq {taken : Taken (Option Nat)} (h : takeNumber cs = .ok taken) :
    ∃ part, cs = part ++ taken.rest ∧ taken.width = byteWidth part := by
  have hdigits : byteWidth (cs.takeWhile Char.isDigit) = (cs.takeWhile Char.isDigit).length :=
    byteWidth_digits fun c hc => List.all_eq_true.mp List.all_takeWhile c hc
  refine ⟨cs.takeWhile Char.isDigit, ?_, ?_⟩
  · rw [takeNumber_rest h]
    exact List.takeWhile_append_dropWhile.symm
  · rw [hdigits]
    unfold takeNumber at h
    dsimp only at h
    split at h
    · rename_i hempty
      obtain rfl := Except.ok.inj h
      rw [List.isEmpty_iff.mp hempty]
      rfl
    · split at h
      · obtain rfl := Except.ok.inj h
        rfl
      · exact absurd h (by simp)

theorem takeComma_append (h : cs ≠ []) (rest : List Char) :
    takeComma (cs ++ rest) = behind rest (takeComma cs) := by
  obtain ⟨c, cs, rfl⟩ := List.exists_cons_of_ne_nil h
  by_cases hc : c = ','
  · subst hc
    rfl
  · rw [List.cons_append, takeComma, takeComma]
    · rfl
    · intro after heq
      exact hc (List.cons.inj heq).1
    · intro after heq
      exact hc (List.cons.inj heq).1

theorem takeComma_eq (cs : List Char) :
    ∃ part, cs = part ++ (takeComma cs).rest ∧ (takeComma cs).width = byteWidth part := by
  unfold takeComma
  split
  · exact ⟨[','], rfl, rfl⟩
  · exact ⟨[], rfl, rfl⟩

/-- Nothing is left where nothing was. -/
theorem ne_nil_of_takeBlanks (h : (takeBlanks cs).rest ≠ []) : cs ≠ [] := by
  rintro rfl
  exact h rfl

theorem ne_nil_of_takeNumber {taken : Taken (Option Nat)} (h : takeNumber cs = .ok taken)
    (hne : taken.rest ≠ []) : cs ≠ [] := by
  rintro rfl
  exact hne (takeNumber_rest h)

theorem ne_nil_of_takeComma (h : (takeComma cs).rest ≠ []) : cs ≠ [] := by
  rintro rfl
  exact h rfl

theorem takeBraces_append {taken : Taken Token} (h : takeBraces start cs = .ok taken)
    (start' : Nat) (rest : List Char) :
    takeBraces start' (cs ++ rest) = .ok (behind rest taken) := by
  unfold takeBraces at h
  dsimp only at h
  split at h
  · exact absurd h (by simp)
  · exact absurd h (by simp)
  rename_i min minWidth after hmin
  split at h
  · rename_i hcomma
    split at h
    · exact absurd h (by simp)
    rename_i max hmax
    split at h
    · rename_i after' hclose
      obtain rfl := Except.ok.inj h
      -- the closing brace is still to come wherever a part ends
      have h₄ : (takeBlanks max.rest).rest ≠ [] := by simp [hclose]
      have h₃ := ne_nil_of_takeNumber hmax (ne_nil_of_takeBlanks h₄)
      have h₂ := ne_nil_of_takeComma (ne_nil_of_takeBlanks h₃)
      have h₁ := ne_nil_of_takeNumber hmin (ne_nil_of_takeBlanks h₂)
      unfold takeBraces
      dsimp only
      rw [takeBlanks_append h₁, behind_rest,
        takeNumber_append hmin (ne_nil_of_takeBlanks h₂)]
      dsimp only [behind]
      rw [takeBlanks_append h₂, behind_rest, takeComma_append h₂, behind_value, if_pos hcomma,
        behind_rest, takeBlanks_append h₃, behind_rest,
        takeNumber_append hmax (ne_nil_of_takeBlanks h₄)]
      dsimp only [behind]
      rw [takeBlanks_append h₄, behind_rest, hclose]
      rfl
    · exact absurd h (by simp)
  · rename_i hcomma
    split at h
    · rename_i after' hclose
      obtain rfl := Except.ok.inj h
      have h₃ : (takeComma (takeBlanks after).rest).rest ≠ [] := by simp [hclose]
      have h₂ := ne_nil_of_takeComma h₃
      have h₁ := ne_nil_of_takeNumber hmin (ne_nil_of_takeBlanks h₂)
      unfold takeBraces
      dsimp only
      rw [takeBlanks_append h₁, behind_rest,
        takeNumber_append hmin (ne_nil_of_takeBlanks h₂)]
      dsimp only [behind]
      rw [takeBlanks_append h₂, behind_rest, takeComma_append h₂, behind_value, if_neg hcomma,
        behind_rest, hclose]
      rfl
    · exact absurd h (by simp)

/-- Bounds go up to the brace that closes them. -/
theorem of_takeBraces {taken : Taken Token} (h : takeBraces start cs = .ok taken) :
    ∃ part, cs = part ++ '\x7d' :: taken.rest ∧ taken.width = byteWidth part + 1 := by
  unfold takeBraces at h
  dsimp only at h
  obtain ⟨blanks₁, hcs, hw₁⟩ := takeBlanks_eq cs
  split at h
  · exact absurd h (by simp)
  · exact absurd h (by simp)
  rename_i min minWidth after hmin
  obtain ⟨digits₁, hrest₁, hd₁⟩ := takeNumber_eq hmin
  obtain ⟨blanks₂, hafter, hw₂⟩ := takeBlanks_eq after
  obtain ⟨comma, hrest₂, hc⟩ := takeComma_eq (takeBlanks after).rest
  dsimp only at hrest₁ hd₁
  split at h
  · split at h
    · exact absurd h (by simp)
    rename_i max hmax
    obtain ⟨blanks₃, hrest₃, hw₃⟩ := takeBlanks_eq (takeComma (takeBlanks after).rest).rest
    obtain ⟨digits₂, hrest₄, hd₂⟩ := takeNumber_eq hmax
    obtain ⟨blanks₄, hrest₅, hw₄⟩ := takeBlanks_eq max.rest
    split at h
    · rename_i after' hclose
      obtain rfl := Except.ok.inj h
      refine ⟨blanks₁ ++ (digits₁ ++ (blanks₂ ++ (comma ++ (blanks₃ ++ (digits₂ ++ blanks₄))))),
        ?_, ?_⟩
      · rw [hcs, hrest₁, hafter, hrest₂, hrest₃, hrest₄, hrest₅, hclose]
        simp
      · simp only [byteWidth_append]
        omega
    · exact absurd h (by simp)
  · split at h
    · rename_i after' hclose
      obtain rfl := Except.ok.inj h
      refine ⟨blanks₁ ++ (digits₁ ++ (blanks₂ ++ comma)), ?_, ?_⟩
      · rw [hcs, hrest₁, hafter, hrest₂, hclose]
        simp
      · simp only [byteWidth_append]
        omega
    · exact absurd h (by simp)

/-! ### One token -/

/-- The last character of a text is that of what is left of it behind a part, if anything is. -/
theorem getLast?_rest {part : List Char} (h : c :: cs = part ++ rest) (hne : rest ≠ []) :
    (c :: cs).getLast? = rest.getLast? := by
  rw [h, List.getLast?_append]
  cases hlast : rest.getLast? with
  | none => exact absurd (List.getLast?_eq_none_iff.mp hlast) hne
  | some d => rfl

theorem ne_nil_of_getLast? {d : Char} (h : cs.getLast? = some d) : cs ≠ [] := by
  rintro rfl
  exact absurd h (by simp)

/-- A character that is a token of its own is one byte wide. -/
theorem utf8Size_of_ofChar? (h : ofChar? c = some token) : c.utf8Size = 1 := by
  unfold ofChar? at h
  split at h
  case h_14 => exact absurd h (by simp)
  all_goals rfl

namespace Begins

variable {taken : Taken Token}

/-- **A token does not depend on what is behind it**, if that carries on no token.  A dollar sign at
the very end must not have anything behind it that would make a reference of it. -/
theorem append (h : Begins start c cs taken) (hrest : Stops rest) (start' : Nat)
    (hdollar : c = '$' → cs = [] → rest.head?.any isWordChar = false) :
    Begins start' c (cs ++ rest) (behind rest taken) := by
  have hhead : ∀ d, cs.head? ≠ some d → rest.head? ≠ some d → (cs ++ rest).head? ≠ some d := by
    intro d hcs hrest
    cases cs with
    | nil => exact hrest
    | cons e cs => exact hcs
  cases h with
  | doubleSlash after => exact .doubleSlash _
  | arrow after => exact .arrow _
  | quoted h => exact .quoted (takeQuoted_append h rest)
  | predicate h => exact .predicate (takePredicate_append h rest)
  | braces h => exact .braces (takeBraces_append h start' rest)
  | reference h =>
      have hword : (cs ++ rest).head?.any isWordChar = true := by
        cases cs with
        | nil => exact absurd h (by simp)
        | cons d cs => exact h
      have hreference : Begins start' '$' (cs ++ rest) _ := .reference hword
      rw [takeWord_append hrest] at hreference
      exact hreference
  | single h slash dollar =>
      refine .single h (fun heq => hhead _ (slash heq) hrest.slash) fun heq => ?_
      cases cs with
      | nil => exact hdollar heq rfl
      | cons d cs => exact dollar heq
  | word h hyphen =>
      have hword : Begins start' c (cs ++ rest) _ :=
        .word h fun heq => hhead _ (hyphen heq) hrest.up
      rw [takeWord_append hrest] at hword
      exact hword

/-- A token takes a part of the text, and its width is that of the part. -/
theorem exists_part (h : Begins start c cs taken) :
    ∃ part, c :: cs = part ++ taken.rest ∧ taken.width = byteWidth part := by
  cases h with
  | doubleSlash after => exact ⟨['/', '/'], rfl, rfl⟩
  | arrow after => exact ⟨['-', '>'], rfl, rfl⟩
  | quoted h =>
      obtain ⟨part, hpart, hwidth⟩ := of_takeQuoted h
      refine ⟨'"' :: (part ++ ['"']), by simp [hpart], ?_⟩
      show 1 + _ = 1 + byteWidth (part ++ ['"'])
      rw [byteWidth_append, hwidth]
      rfl
  | predicate h =>
      obtain ⟨part, hpart, hwidth⟩ := of_takePredicate h
      refine ⟨'[' :: (part ++ [']']), by simp [hpart], ?_⟩
      show 1 + _ = 1 + byteWidth (part ++ [']'])
      rw [byteWidth_append, hwidth]
      rfl
  | braces h =>
      obtain ⟨part, hpart, hwidth⟩ := of_takeBraces h
      refine ⟨'\x7b' :: (part ++ ['\x7d']), by simp [hpart], ?_⟩
      show 1 + _ = 1 + byteWidth (part ++ ['\x7d'])
      rw [byteWidth_append, hwidth]
      rfl
  | reference h =>
      obtain ⟨hcs, hwidth⟩ := takeWord_eq cs
      exact ⟨'$' :: (takeWord cs).value, congrArg ('$' :: ·) hcs, by rw [hwidth]; rfl⟩
  | single h slash dollar => exact ⟨[c], rfl, (utf8Size_of_ofChar? h).symm⟩
  | word h hyphen =>
      obtain ⟨hcs, hwidth⟩ := takeWord_eq cs
      exact ⟨c :: (takeWord cs).value, congrArg (c :: ·) hcs, by rw [hwidth]; rfl⟩

theorem anywhere (h : Begins start c cs taken) (start' : Nat) : Begins start' c cs taken := by
  have happend := h.append stops_nil start' fun _ _ => rfl
  simpa [behind] using happend

theorem length_rest_le (h : Begins start c cs taken) : taken.rest.length ≤ cs.length :=
  length_rest_take (take_eq_ok_iff.mpr h)

theorem byteWidth_eq (h : Begins start c cs taken) :
    byteWidth (c :: cs) = taken.width + byteWidth taken.rest := by
  obtain ⟨part, hpart, hwidth⟩ := h.exists_part
  rw [hpart, byteWidth_append, hwidth]

theorem getLast?_eq (h : Begins start c cs taken) (hne : taken.rest ≠ []) :
    (c :: cs).getLast? = taken.rest.getLast? := by
  obtain ⟨part, hpart, -⟩ := h.exists_part
  exact getLast?_rest hpart hne

/-- If all of a text that ends in a dollar sign is one token, it is the dollar sign alone. -/
theorem eq_dollar (h : Begins start c cs taken) (hrest : taken.rest = [])
    (hlast : (c :: cs).getLast? = some '$') : c = '$' ∧ cs = [] := by
  -- a sign that closes the token is at its end, and a dollar sign stands in no word
  have hclosed : ∀ part d, cs = part ++ [d] → d = '$' := by
    rintro part d rfl
    rw [getLast?_rest (List.cons_append.symm : c :: (part ++ [d]) = (c :: part) ++ [d])
      (by simp)] at hlast
    exact Option.some.inj hlast
  have hword : '$' ∉ (takeWord cs).value := by
    intro hmem
    exact absurd (isWordChar_of_mem_takeWord _ hmem) (by decide)
  cases h with
  | doubleSlash after =>
      obtain rfl : after = [] := hrest
      exact absurd hlast (by decide)
  | arrow after =>
      obtain rfl : after = [] := hrest
      exact absurd hlast (by decide)
  | quoted h =>
      obtain ⟨part, hpart, -⟩ := of_takeQuoted h
      dsimp only at hrest
      exact absurd (hclosed part '"' (hrest ▸ hpart)) (by decide)
  | predicate h =>
      obtain ⟨part, hpart, -⟩ := of_takePredicate h
      dsimp only at hrest
      exact absurd (hclosed part ']' (hrest ▸ hpart)) (by decide)
  | braces h =>
      obtain ⟨part, hpart, -⟩ := of_takeBraces h
      dsimp only at hrest
      exact absurd (hclosed part '\x7d' (hrest ▸ hpart)) (by decide)
  | reference h =>
      have hcs := (takeWord_eq cs).1
      rw [show (takeWord cs).rest = [] from hrest, List.append_nil] at hcs
      have hne : cs ≠ [] := by
        rintro rfl
        exact absurd h (by simp)
      rw [getLast?_rest (List.singleton_append.symm : '$' :: cs = ['$'] ++ cs) hne] at hlast
      exact absurd (hcs ▸ List.mem_of_getLast? hlast) hword
  | single h slash dollar =>
      obtain rfl : cs = [] := hrest
      exact ⟨by simpa using hlast, rfl⟩
  | word h hyphen =>
      have hcs := (takeWord_eq cs).1
      rw [show (takeWord cs).rest = [] from hrest, List.append_nil] at hcs
      rcases List.mem_cons.mp (List.mem_of_getLast? hlast) with rfl | hmem
      · exact absurd h (by decide)
      · exact absurd (hcs ▸ hmem) hword

end Begins

/-! ### All tokens -/

variable {tokens : List (Placed Token)}

theorem Cuts.readFrom_append {more : List (Placed Token)} (h : Cuts start cs tokens finish rest)
    (hrest : readFrom finish rest = .ok more) : readFrom start cs = .ok (tokens ++ more) := by
  rw [show readFrom start cs = _ from h, hrest]
  rfl

theorem of_readFrom_cons_of_not_isBlank (hblank : isBlank c = false)
    (h : readFrom start (c :: cs) = .ok tokens) :
    ∃ taken more, Begins start c cs taken ∧
      readFrom (start + taken.width) taken.rest = .ok more ∧
        tokens = ⟨taken.value, start⟩ :: more := by
  rcases of_readFrom_cons h with ⟨hblank', -⟩ | ⟨taken, more, htake, hmore, rfl⟩
  · exact absurd (hblank.symm.trans hblank') Bool.false_ne_true
  · exact ⟨taken, more, take_eq_ok_iff.mp htake, hmore, rfl⟩

/-- **A text is cut into the same tokens with something behind it that carries on no token.**  If it
ends in a dollar sign, no word character may be behind it. -/
theorem cuts_append : ∀ (cs : List Char) {start : Nat} {tokens : List (Placed Token)},
    readFrom start cs = .ok tokens → Stops rest →
      (cs.getLast? = some '$' → rest.head?.any isWordChar = false) →
        Cuts start (cs ++ rest) tokens (start + byteWidth cs) rest
  | [], start, tokens, h, _, _ => by
      rw [readFrom] at h
      obtain rfl := Except.ok.inj h
      exact .nil _ _
  | c :: cs, start, tokens, h, hrest, hlast => by
      cases hblank : isBlank c with
      | true =>
          rw [readFrom, if_pos hblank] at h
          rw [byteWidth_cons, ← Nat.add_assoc]
          refine .blank hblank (cuts_append cs h hrest fun heq => hlast ?_)
          have hne : cs ≠ [] := ne_nil_of_getLast? heq
          exact (getLast?_rest (List.singleton_append.symm : c :: cs = [c] ++ cs) hne).trans heq
      | false =>
          obtain ⟨taken, more, hbegins, hmore, rfl⟩ := of_readFrom_cons_of_not_isBlank hblank h
          have hle := hbegins.length_rest_le
          have hmore' := cuts_append taken.rest hmore hrest fun heq =>
            hlast ((hbegins.getLast?_eq (ne_nil_of_getLast? heq)).trans heq)
          have hbegins' := hbegins.append hrest start fun hc hcs => hlast (by simp [hc, hcs])
          rw [hbegins.byteWidth_eq, ← Nat.add_assoc]
          show Cuts start (c :: (cs ++ rest)) (⟨(behind rest taken).value, start⟩ :: more) _ rest
          exact Cuts.cons hblank (take_eq_ok_iff.mpr hbegins') hmore'
  termination_by cs => cs.length

/-- **A dollar sign at the very end is carried on by an arrow**: it becomes a reference to an empty
name. -/
theorem cuts_dollar_arrow : ∀ (cs : List Char) {start : Nat} {tokens : List (Placed Token)},
    readFrom start cs = .ok tokens → cs.getLast? = some '$' →
      ∃ before, tokens = before ++ [⟨.dollar, start + byteWidth cs - 1⟩] ∧ ∀ rest,
        Cuts start (cs ++ '-' :: '>' :: rest)
          (before ++ [⟨.reference "", start + byteWidth cs - 1⟩]) (start + byteWidth cs)
            ('-' :: '>' :: rest)
  | [], _, _, _, hlast => by
      exact absurd hlast (by simp)
  | c :: cs, start, tokens, h, hlast => by
      cases hblank : isBlank c with
      | true =>
          have hne : cs ≠ [] := by
            rintro rfl
            obtain rfl : c = '$' := by simpa using hlast
            exact absurd hblank (by decide)
          rw [readFrom, if_pos hblank] at h
          rw [getLast?_rest (List.singleton_append.symm : c :: cs = [c] ++ cs) hne] at hlast
          obtain ⟨before, htokens, hcuts⟩ := cuts_dollar_arrow cs h hlast
          rw [byteWidth_cons, ← Nat.add_assoc]
          exact ⟨before, htokens, fun rest => .blank hblank (hcuts rest)⟩
      | false =>
          obtain ⟨taken, more, hbegins, hmore, rfl⟩ := of_readFrom_cons_of_not_isBlank hblank h
          by_cases hrest : taken.rest = []
          · obtain ⟨rfl, rfl⟩ := hbegins.eq_dollar hrest hlast
            have hdollar : Begins start '$' [] ⟨.dollar, 1, []⟩ := .single rfl (by simp) (by simp)
            obtain rfl : taken = ⟨.dollar, 1, []⟩ :=
              Except.ok.inj ((take_eq_ok_iff.mpr hbegins).symm.trans (take_eq_ok_iff.mpr hdollar))
            rw [readFrom] at hmore
            obtain rfl := Except.ok.inj hmore
            refine ⟨[], rfl, fun rest => ?_⟩
            have hword : ('-' :: '>' :: rest).head?.any isWordChar = true :=
              show isWordChar '-' = true by decide
            have hreference : Begins start '$' ('-' :: '>' :: rest) _ := .reference hword
            rw [(stops_arrow rest).word] at hreference
            exact Cuts.cons hblank (take_eq_ok_iff.mpr hreference) (.nil _ _)
          · have hle := hbegins.length_rest_le
            have hne : cs ≠ [] := by
              rintro rfl
              exact hrest (List.length_eq_zero_iff.mp (Nat.le_zero.mp hle))
            obtain ⟨before, hbefore, hcuts⟩ :=
              cuts_dollar_arrow taken.rest hmore ((hbegins.getLast?_eq hrest).symm.trans hlast)
            rw [hbegins.byteWidth_eq, ← Nat.add_assoc]
            refine ⟨⟨taken.value, start⟩ :: before, by rw [hbefore]; rfl, fun rest => ?_⟩
            have hbegins' := hbegins.append (stops_arrow rest) start fun _ hnil => absurd hnil hne
            show Cuts start (c :: (cs ++ '-' :: '>' :: rest))
              (⟨(behind ('-' :: '>' :: rest) taken).value, start⟩ :: _) _ _
            exact Cuts.cons hblank (take_eq_ok_iff.mpr hbegins') (hcuts rest)
  termination_by cs => cs.length

/-- A text is cut into the same tokens wherever it starts. -/
theorem readFrom_relocate (offset : Nat) : ∀ (cs : List Char) {start : Nat}
    {tokens : List (Placed Token)}, readFrom start cs = .ok tokens →
      readFrom (start + offset) cs = .ok (tokens.map (·.relocate (· + offset)))
  | [], start, tokens, h => by
      rw [readFrom] at h
      obtain rfl := Except.ok.inj h
      rw [readFrom]
      rfl
  | c :: cs, start, tokens, h => by
      cases hblank : isBlank c with
      | true =>
          rw [readFrom, if_pos hblank] at h ⊢
          rw [Nat.add_right_comm]
          exact readFrom_relocate offset cs h
      | false =>
          obtain ⟨taken, more, hbegins, hmore, rfl⟩ := of_readFrom_cons_of_not_isBlank hblank h
          have hle := hbegins.length_rest_le
          have hmore' := readFrom_relocate offset taken.rest hmore
          rw [Nat.add_right_comm] at hmore'
          have hfirst := Cuts.cons hblank
            (take_eq_ok_iff.mpr (hbegins.anywhere (start + offset))) (.nil _ _)
          exact hfirst.readFrom_append hmore'
  termination_by cs => cs.length

/-- **Every token stands where its text begins.** -/
theorem exists_begins_of_mem : ∀ (cs : List Char) {start : Nat} {tokens : List (Placed Token)},
    readFrom start cs = .ok tokens → ∀ token ∈ tokens, ∃ before c after taken,
      cs = before ++ c :: after ∧ Begins token.position c after taken ∧ taken.value = token.value ∧
        token.position = start + byteWidth before
  | [], start, tokens, h, token, hmem => by
      rw [readFrom] at h
      obtain rfl := Except.ok.inj h
      exact absurd hmem (by simp)
  | c :: cs, start, tokens, h, token, hmem => by
      cases hblank : isBlank c with
      | true =>
          rw [readFrom, if_pos hblank] at h
          obtain ⟨before, d, after, taken, rfl, hbegins, hvalue, hposition⟩ :=
            exists_begins_of_mem cs h token hmem
          refine ⟨c :: before, d, after, taken, rfl, hbegins, hvalue, ?_⟩
          rw [hposition, byteWidth_cons, Nat.add_assoc]
      | false =>
          obtain ⟨taken, more, hbegins, hmore, rfl⟩ := of_readFrom_cons_of_not_isBlank hblank h
          have hle := hbegins.length_rest_le
          rcases List.mem_cons.mp hmem with rfl | hmem
          · exact ⟨[], c, cs, taken, rfl, hbegins, rfl, rfl⟩
          · obtain ⟨part, hpart, hwidth⟩ := hbegins.exists_part
            obtain ⟨before, d, after, taken', hrest, hbegins', hvalue, hposition⟩ :=
              exists_begins_of_mem taken.rest hmore token hmem
            refine ⟨part ++ before, d, after, taken', ?_, hbegins', hvalue, ?_⟩
            · rw [hpart, hrest, List.append_assoc]
            · rw [hposition, byteWidth_append, hwidth, Nat.add_assoc]
  termination_by cs => cs.length

/-- No token stands behind the text. -/
theorem position_lt_of_mem (h : readFrom start cs = .ok tokens) {token : Placed Token}
    (hmem : token ∈ tokens) : token.position < start + byteWidth cs := by
  obtain ⟨before, c, after, taken, rfl, -, -, hposition⟩ := exists_begins_of_mem cs h token hmem
  have hpos := c.utf8Size_pos
  rw [hposition, byteWidth_append, byteWidth_cons]
  omega

end Token

end TreeRules
