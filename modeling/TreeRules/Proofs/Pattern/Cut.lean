/-
Texts are cut into tokens piece by piece.

What is cut off the front of a text does not depend on the text after it, as long as that text
cannot carry on the last piece: after a word or a name comes neither a word character nor the `>`
that would make an arrow of a hyphen.  So the tokens of a text are those of its pieces.

  * `Begins` lists what a text may begin with, one case for each kind of token, and what is taken is
    told by it.
  * Between quotes a backslash stands for the character after it.  Quoting writes some characters
    by a letter or by their code point behind a backslash, so `rereadChar` says what is read there.
  * A name is made of word characters.  It is empty only where an arrow stands right behind the
    dollar sign, and then the arrow is the next token.
-/
import TreeRules.Pattern.Lexer

namespace TreeRules.Token

open TreeRules.Text

variable {c : Char} {cs run rest : List Char} {start finish : Nat} {token : Token}

/-! ### Characters -/

theorem not_inRanges_of_apart {table table' : List (Nat × Nat)}
    (apart : ∀ r ∈ table, ∀ q ∈ table', r.2 < q.1 ∨ q.2 < r.1) (h : inRanges table c = true) :
    inRanges table' c = false := by
  obtain ⟨r, hr, hc⟩ := List.any_eq_true.mp h
  refine List.any_eq_false.mpr fun q hq hc' => ?_
  simp only [Bool.and_eq_true, decide_eq_true_eq] at hc hc'
  rcases apart r hr q hq with hlt | hlt <;> omega

/-- No character both separates words and stands in one. -/
theorem not_isWordChar_of_isBlank (h : isBlank c = true) : isWordChar c = false := by
  by_cases hascii : c.val < 128
  · have hall : ∀ n < 128, isBlank (Char.ofNat n) = true → isWordChar (Char.ofNat n) = false := by
      decide +kernel
    have hc := hall c.toNat (UInt32.lt_iff_toNat_lt.mp hascii)
    rw [Char.ofNat_toNat] at hc
    exact hc h
  · have hletter : inRanges alphanumericRanges c = false :=
      not_inRanges_of_apart (by decide +kernel) h
    have hunderscore : c ≠ '_' := by
      rintro rfl
      exact absurd h (by decide)
    have hhyphen : c ≠ '-' := by
      rintro rfl
      exact absurd h (by decide)
    simp [isWordChar, isAlphanumeric, hascii, hletter, hunderscore, hhyphen]

theorem not_isBlank (h : isWordChar c = true) : isBlank c = false := by
  cases hblank : isBlank c with
  | false => rfl
  | true => exact absurd h (by simp [not_isWordChar_of_isBlank hblank])

/-- A character that is a token of its own stands in no word. -/
theorem not_isWordChar_of_ofChar? (h : ofChar? c = some token) : isWordChar c = false := by
  unfold ofChar? at h
  split at h
  case h_14 => exact absurd h (by simp)
  all_goals decide

theorem ofChar?_eq_none (h : isWordChar c = true) : ofChar? c = none := by
  cases hc : ofChar? c with
  | none => rfl
  | some token => exact absurd h (by simp [not_isWordChar_of_ofChar? hc])

/-! ### Words -/

/-- The text cannot carry on a word that stands before it. -/
def Delimited (rest : List Char) : Prop := ∀ c ∈ rest.head?, isWordChar c = false ∧ c ≠ '>'

theorem delimited_nil : Delimited [] := by
  intro c hc
  exact absurd hc (by simp)

theorem delimited_cons (hword : isWordChar c = false) (hup : c ≠ '>') (cs : List Char) :
    Delimited (c :: cs) := by
  intro d hd
  obtain rfl := Option.some.inj hd
  exact ⟨hword, hup⟩

/-- No word character makes an arrow of a hyphen before it, and what delimits a word does not. -/
theorem head?_ne_up (hrun : ∀ c ∈ run, isWordChar c = true) (hrest : Delimited rest) :
    (run ++ rest).head? ≠ some '>' := by
  intro h
  cases run with
  | nil => exact (hrest '>' h).2 rfl
  | cons c run =>
      obtain rfl := Option.some.inj h
      exact absurd (hrun '>' List.mem_cons_self) (by decide)

/-- A word is taken as far as it goes. -/
theorem takeWord_run (hrun : ∀ c ∈ run, isWordChar c = true) (hrest : Delimited rest) :
    takeWord (run ++ rest) = ⟨run, byteWidth run, rest⟩ := by
  induction run with
  | nil =>
      cases rest with
      | nil => rfl
      | cons c rest =>
          rw [List.nil_append, takeWord, if_neg (by simp [(hrest c rfl).1])]
          rfl
  | cons c run ih =>
      obtain ⟨hc, hrun⟩ := List.forall_mem_cons.mp hrun
      have hnext : ((run ++ rest).head? == some '>') = false :=
        beq_eq_false_iff_ne.mpr (head?_ne_up hrun hrest)
      rw [List.cons_append, takeWord, if_pos (by rw [hc, hnext, Bool.and_false]; rfl), ih hrun]
      rfl

theorem isWordChar_of_mem_takeWord : ∀ {cs : List Char}, ∀ c ∈ (takeWord cs).value,
    isWordChar c = true := by
  intro cs
  induction cs with
  | nil => simp [takeWord]
  | cons d cs ih =>
      rw [takeWord]
      split
      · rename_i hd
        intro c hc
        rcases List.mem_cons.mp hc with rfl | hc
        · exact (Bool.and_eq_true _ _ ▸ hd).1
        · exact ih c hc
      · simp

/-- Where a word character stands, a word is taken unless there is an arrow. -/
theorem arrow_of_takeWord_nil (hword : cs.head?.any isWordChar = true)
    (h : (takeWord cs).value = []) : ∃ rest, cs = '-' :: '>' :: rest ∧ (takeWord cs).rest = cs := by
  cases cs with
  | nil => exact absurd hword (by simp)
  | cons c cs =>
      rw [takeWord] at h ⊢
      split at h
      · exact absurd h (by simp [Taken.cons])
      · rename_i hc
        have hword : isWordChar c = true := hword
        simp only [hword, Bool.true_and, Bool.not_eq_true', Bool.not_eq_false, Bool.and_eq_true,
          beq_iff_eq] at hc
        obtain ⟨rfl, hup⟩ := hc
        obtain ⟨rest, rfl⟩ := List.head?_eq_some_iff.mp hup
        exact ⟨rest, rfl, by rw [if_neg (by simp)]⟩

/-! ### Quoted text -/

/-- Between quotes this part of a text stands for these characters. -/
def Quotes (part value : List Char) : Prop :=
  ∀ cs, takeQuoted (part ++ cs) = (takeQuoted cs).map fun taken =>
    ⟨value ++ taken.value, byteWidth part + taken.width, taken.rest⟩

namespace Quotes

theorem nil : Quotes [] [] := by
  intro cs
  cases h : takeQuoted cs <;> simp [h]

theorem append {part part' value value' : List Char} (h : Quotes part value)
    (h' : Quotes part' value') : Quotes (part ++ part') (value ++ value') := by
  intro cs
  rw [List.append_assoc, h, h', Option.map_map]
  congr 1
  funext taken
  simp [Nat.add_assoc]

/-- A character stands for itself, unless it is a quote or a backslash. -/
theorem plain (hquote : c ≠ '"') (hbackslash : c ≠ '\\') : Quotes [c] [c] := by
  intro cs
  rw [List.singleton_append, takeQuoted]
  · rw [if_neg hquote]
    rfl
  · exact fun h => absurd h hbackslash
  · exact fun _ _ h => absurd h hbackslash

/-- Behind a backslash every character stands for itself. -/
theorem escaped (c : Char) : Quotes ['\\', c] [c] := by
  intro cs
  show takeQuoted ('\\' :: c :: cs) = _
  rw [takeQuoted]
  simp only [Taken.cons]
  rfl

theorem plains (h : ∀ c ∈ cs, c ≠ '"' ∧ c ≠ '\\') : Quotes cs cs := by
  induction cs with
  | nil => exact nil
  | cons c cs ih =>
      obtain ⟨hc, hcs⟩ := List.forall_mem_cons.mp h
      exact (plain hc.1 hc.2).append (ih hcs)

end Quotes

/-- What is read between quotes where quoting wrote the character. -/
def rereadChar (c : Char) : List Char :=
  if c = '\n' then ['n']
  else if c = '\r' then ['r']
  else if c = '\t' then ['t']
  else if c = '\x00' then ['0']
  else if isPrintable c then [c]
  else 'u' :: '\x7b' :: hexDigits c.toNat ++ ['\x7d']

theorem exists_digitChar {n : Nat} (h : c ∈ hexDigits n) : ∃ d, c = Nat.digitChar d := by
  induction n using Nat.strongRecOn with
  | ind n ih =>
      rw [hexDigits, Nat.toDigits_eq_if (by decide)] at h
      split at h
      · exact ⟨n, List.mem_singleton.mp h⟩
      · rcases List.mem_append.mp h with h | h
        · exact ih (n / 16) (by omega) h
        · exact ⟨n % 16, List.mem_singleton.mp h⟩

/-- A digit is neither a quote nor a backslash. -/
theorem ne_of_mem_hexDigits {n : Nat} (h : c ∈ hexDigits n) : c ≠ '"' ∧ c ≠ '\\' := by
  obtain ⟨d, rfl⟩ := exists_digitChar h
  exact ⟨Nat.digitChar_ne '"' (by decide), Nat.digitChar_ne '\\' (by decide)⟩

/-- What quoting writes for a character is read as `rereadChar` says. -/
theorem quotes_quoteChar (c : Char) : Quotes (quoteChar c) (rereadChar c) := by
  by_cases hquote : c = '"'
  · subst hquote
    exact .escaped '"'
  by_cases hbackslash : c = '\\'
  · subst hbackslash
    exact .escaped '\\'
  by_cases hn : c = '\n'
  · subst hn
    exact .escaped 'n'
  by_cases hr : c = '\r'
  · subst hr
    exact .escaped 'r'
  by_cases ht : c = '\t'
  · subst ht
    exact .escaped 't'
  by_cases h0 : c = '\x00'
  · subst h0
    exact .escaped '0'
  rw [quoteChar, if_neg hquote, if_neg hbackslash, if_neg hn, if_neg hr, if_neg ht, if_neg h0,
    rereadChar, if_neg hn, if_neg hr, if_neg ht, if_neg h0]
  by_cases hprintable : isPrintable c = true
  · rw [if_pos hprintable, if_pos hprintable]
    exact .plain hquote hbackslash
  · rw [if_neg hprintable, if_neg hprintable]
    have hdigits : Quotes (hexDigits c.toNat) (hexDigits c.toNat) :=
      .plains fun _ => ne_of_mem_hexDigits
    have hclose : Quotes ['\x7d'] ['\x7d'] := .plain (by decide) (by decide)
    have hopen : Quotes ['\x7b'] ['\x7b'] := .plain (by decide) (by decide)
    exact (Quotes.escaped 'u').append (hopen.append (hdigits.append hclose))

theorem quotes_flatMap : ∀ cs : List Char, Quotes (cs.flatMap quoteChar) (cs.flatMap rereadChar)
  | [] => .nil
  | c :: cs => (quotes_quoteChar c).append (quotes_flatMap cs)

/-- **What stands between the quotes is read up to the quote that closes it.** -/
theorem takeQuoted_quoted (cs rest : List Char) :
    takeQuoted (cs.flatMap quoteChar ++ '"' :: rest) =
      some ⟨cs.flatMap rereadChar, byteWidth (cs.flatMap quoteChar) + 1, rest⟩ := by
  have hclose : takeQuoted ('"' :: rest) = some ⟨[], 1, rest⟩ := by
    rw [takeQuoted]
    · exact if_pos rfl
    · exact fun h => absurd h (by decide)
    · exact fun _ _ h => absurd h (by decide)
  rw [quotes_flatMap cs, hclose, Option.map_some, List.append_nil]

theorem rereadChar_of_isPrintable (h : isPrintable c = true) : rereadChar c = [c] := by
  have hne (d : Char) (hd : isPrintable d = false) : c ≠ d := by
    rintro rfl
    exact absurd h (by simp [hd])
  rw [rereadChar, if_neg (hne _ (by decide)), if_neg (hne _ (by decide)),
    if_neg (hne _ (by decide)), if_neg (hne _ (by decide)), if_pos h]

/-- What is read for a character starts with one that has a glyph of its own. -/
theorem head_rereadChar (c : Char) :
    ∃ d ds, rereadChar c = d :: ds ∧ isPrintable d = true := by
  unfold rereadChar
  split
  · exact ⟨'n', [], rfl, by decide⟩
  split
  · exact ⟨'r', [], rfl, by decide⟩
  split
  · exact ⟨'t', [], rfl, by decide⟩
  split
  · exact ⟨'0', [], rfl, by decide⟩
  split
  · rename_i h
    exact ⟨c, [], rfl, h⟩
  · exact ⟨'u', _, rfl, by decide⟩

/-- **A text is read back as it was exactly if quoting shows each of its characters as itself.** -/
theorem flatMap_rereadChar_eq_iff :
    cs.flatMap rereadChar = cs ↔ ∀ c ∈ cs, isPrintable c = true := by
  induction cs with
  | nil => simp
  | cons c cs ih =>
      rw [List.flatMap_cons, List.forall_mem_cons]
      constructor
      · intro h
        -- the first character that is read is the first of the text, so it is shown as itself
        obtain ⟨d, ds, hread, hd⟩ := head_rereadChar c
        rw [hread, List.cons_append] at h
        obtain ⟨rfl, -⟩ := List.cons.inj h
        rw [← List.cons_append, ← hread, rereadChar_of_isPrintable hd] at h
        exact ⟨hd, ih.mp (List.cons.inj h).2⟩
      · rintro ⟨hc, hcs⟩
        rw [rereadChar_of_isPrintable hc, ih.mpr hcs]
        rfl

/-! ### One token -/

/-- What is taken where neither two characters nor an opening sign make a token. -/
theorem take_single (start : Nat) (hslash : c = '/' → cs.head? ≠ some '/')
    (hhyphen : c = '-' → cs.head? ≠ some '>') (hquote : c ≠ '"') (hbracket : c ≠ '[')
    (hbrace : c ≠ '\x7b') :
    take start c cs =
      if c = '$' && cs.head?.any isWordChar then
        .ok ⟨.reference (String.ofList (takeWord cs).value), 1 + (takeWord cs).width,
          (takeWord cs).rest⟩
      else match ofChar? c with
        | some token => .ok ⟨token, 1, cs⟩
        | none =>
          if isWordChar c then
            .ok ⟨.word (String.ofList (c :: (takeWord cs).value)), c.utf8Size + (takeWord cs).width,
              (takeWord cs).rest⟩
          else .error (.malformed (.unexpectedChar c) start) := by
  unfold take
  split
  · exact absurd rfl (hslash rfl)
  · exact absurd rfl (hhyphen rfl)
  · exact absurd rfl hquote
  · exact absurd rfl hbracket
  · exact absurd rfl hbrace
  · rfl

/-- The token that a text of `c` and `cs` begins with. -/
inductive Begins (start : Nat) : Char → List Char → Taken Token → Prop
  | doubleSlash (after : List Char) : Begins start '/' ('/' :: after) ⟨.doubleSlash, 2, after⟩
  | arrow (after : List Char) : Begins start '-' ('>' :: after) ⟨.arrow, 2, after⟩
  | quoted {cs : List Char} {text : Taken (List Char)} (h : takeQuoted cs = some text) :
    Begins start '"' cs ⟨.quoted (String.ofList text.value), 1 + text.width, text.rest⟩
  | predicate {cs : List Char} {name : Taken (List Char)} (h : takePredicate cs = .ok name) :
    Begins start '[' cs ⟨.predicate (String.ofList name.value), 1 + name.width, name.rest⟩
  | braces {cs : List Char} {bounds : Taken Token} (h : takeBraces start cs = .ok bounds) :
    Begins start '\x7b' cs ⟨bounds.value, 1 + bounds.width, bounds.rest⟩
  | reference {cs : List Char} (h : cs.head?.any isWordChar = true) :
    Begins start '$' cs ⟨.reference (String.ofList (takeWord cs).value), 1 + (takeWord cs).width,
      (takeWord cs).rest⟩
  | single {c : Char} {cs : List Char} {token : Token} (h : ofChar? c = some token)
    (slash : c = '/' → cs.head? ≠ some '/') (dollar : c = '$' → cs.head?.any isWordChar = false) :
    Begins start c cs ⟨token, 1, cs⟩
  | word {c : Char} {cs : List Char} (h : isWordChar c = true)
    (hyphen : c = '-' → cs.head? ≠ some '>') :
    Begins start c cs ⟨.word (String.ofList (c :: (takeWord cs).value)),
      c.utf8Size + (takeWord cs).width, (takeWord cs).rest⟩

/-- **What is taken is what the text begins with.** -/
theorem take_eq_ok_iff {taken : Taken Token} :
    take start c cs = .ok taken ↔ Begins start c cs taken := by
  constructor
  · intro h
    unfold take at h
    split at h
    · obtain rfl := Except.ok.inj h
      exact .doubleSlash _
    · obtain rfl := Except.ok.inj h
      exact .arrow _
    · split at h
      · exact absurd h (by simp)
      · rename_i text htext
        obtain rfl := Except.ok.inj h
        exact .quoted htext
    · split at h
      · exact absurd h (by simp)
      · rename_i name hname
        obtain rfl := Except.ok.inj h
        exact .predicate hname
    · split at h
      · exact absurd h (by simp)
      · rename_i bounds hbounds
        obtain rfl := Except.ok.inj h
        exact .braces hbounds
    · rename_i _ _ _ _ _ hslash hhyphen
      have hslash' : c = '/' → cs.head? ≠ some '/' := by
        rintro rfl heq
        obtain ⟨after, rfl⟩ := List.head?_eq_some_iff.mp heq
        exact hslash after rfl rfl
      have hhyphen' : c = '-' → cs.head? ≠ some '>' := by
        rintro rfl heq
        obtain ⟨after, rfl⟩ := List.head?_eq_some_iff.mp heq
        exact hhyphen after rfl rfl
      split at h
      · rename_i hdollar
        rw [Bool.and_eq_true, decide_eq_true_eq] at hdollar
        obtain ⟨rfl, hword⟩ := hdollar
        obtain rfl := Except.ok.inj h
        exact .reference hword
      · rename_i hdollar
        split at h
        · rename_i token hchar
          obtain rfl := Except.ok.inj h
          refine .single hchar hslash' fun heq => ?_
          simpa [heq] using hdollar
        · split at h
          · rename_i hword
            obtain rfl := Except.ok.inj h
            exact .word hword hhyphen'
          · exact absurd h (by simp)
  · intro h
    cases h with
    | doubleSlash after => rfl
    | arrow after => rfl
    | quoted h => rw [take, h]
    | predicate h => rw [take, h]
    | braces h => rw [take, h]
    | reference h =>
        rw [take_single start (fun heq => absurd heq (by decide))
          (fun heq => absurd heq (by decide)) (by decide) (by decide) (by decide), h]
        rfl
    | @single c cs token h slash dollar =>
        have hne : ∀ d, ofChar? d = none → c ≠ d := by
          rintro d hd rfl
          exact absurd (hd.symm.trans h) (by simp)
        rw [take_single start slash (fun heq => absurd heq (hne _ rfl)) (hne _ rfl) (hne _ rfl)
          (hne _ rfl), h, if_neg]
        intro hword
        rw [Bool.and_eq_true, decide_eq_true_eq] at hword
        exact absurd (dollar hword.1) (by simp [hword.2])
    | @word c cs h hyphen =>
        have hne : ∀ d, isWordChar d = false → c ≠ d := by
          rintro d hd rfl
          exact absurd (hd.symm.trans h) (by simp)
        rw [take_single start (fun heq => absurd heq (hne _ (by decide))) hyphen
          (hne _ (by decide)) (hne _ (by decide)) (hne _ (by decide)), ofChar?_eq_none h, if_neg]
        · exact if_pos h
        · rw [Bool.and_eq_true, decide_eq_true_eq]
          exact fun hword => hne _ (by decide) hword.1

theorem take_word (start : Nat) (hc : isWordChar c = true) (hrun : ∀ c ∈ run, isWordChar c = true)
    (hrest : Delimited rest) :
    take start c (run ++ rest) =
      .ok ⟨.word (String.ofList (c :: run)), byteWidth (c :: run), rest⟩ := by
  have hword : Begins start c (run ++ rest) _ := .word hc fun _ => head?_ne_up hrun hrest
  rw [takeWord_run hrun hrest] at hword
  exact take_eq_ok_iff.mpr hword

theorem take_reference (start : Nat) (hne : run ≠ []) (hrun : ∀ c ∈ run, isWordChar c = true)
    (hrest : Delimited rest) :
    take start '$' (run ++ rest) =
      .ok ⟨.reference (String.ofList run), 1 + byteWidth run, rest⟩ := by
  have hfirst : (run ++ rest).head?.any isWordChar = true := by
    obtain ⟨c, run, rfl⟩ := List.exists_cons_of_ne_nil hne
    exact hrun c List.mem_cons_self
  have hreference : Begins start '$' (run ++ rest) _ := .reference hfirst
  rw [takeWord_run hrun hrest] at hreference
  exact take_eq_ok_iff.mpr hreference

theorem take_quoted (start : Nat) (cs rest : List Char) :
    take start '"' (cs.flatMap quoteChar ++ '"' :: rest) =
      .ok ⟨.quoted (String.ofList (cs.flatMap rereadChar)),
        1 + (byteWidth (cs.flatMap quoteChar) + 1), rest⟩ :=
  take_eq_ok_iff.mpr (.quoted (takeQuoted_quoted cs rest))

/-- A character that is a token of its own is taken alone, unless it goes on with the next. -/
theorem take_ofChar? (start : Nat) (h : ofChar? c = some token) (hdollar : c ≠ '$')
    (hslash : c = '/' → cs.head? ≠ some '/') : take start c cs = .ok ⟨token, 1, cs⟩ :=
  take_eq_ok_iff.mpr (.single h hslash fun heq => absurd heq hdollar)

/-! ### Tokens one after another -/

/-- From `start`, the text is cut into these tokens and, from `finish`, into what the rest of it is
cut into. -/
def Cuts (start : Nat) (cs : List Char) (tokens : List (Placed Token)) (finish : Nat)
    (rest : List Char) : Prop :=
  readFrom start cs = (readFrom finish rest).map (tokens ++ ·)

namespace Cuts

variable {tokens tokens' : List (Placed Token)} {middle : Nat} {mid : List Char}

theorem nil (start : Nat) (cs : List Char) : Cuts start cs [] start cs := by
  unfold Cuts
  cases readFrom start cs <;> rfl

theorem append (h : Cuts start cs tokens middle mid) (h' : Cuts middle mid tokens' finish rest) :
    Cuts start cs (tokens ++ tokens') finish rest := by
  unfold Cuts at h h' ⊢
  rw [h, h']
  cases readFrom finish rest with
  | error e => rfl
  | ok more => exact congrArg Except.ok (List.append_assoc tokens tokens' more).symm

theorem blank (hblank : isBlank c = true) (h : Cuts (start + c.utf8Size) cs tokens finish rest) :
    Cuts start (c :: cs) tokens finish rest := by
  unfold Cuts at h ⊢
  rw [readFrom, if_pos hblank, h]

/-- The first token, and then those of the text after it. -/
theorem cons {taken : Taken Token} (hblank : isBlank c = false) (htake : take start c cs = .ok taken)
    (h : Cuts (start + taken.width) taken.rest tokens finish rest) :
    Cuts start (c :: cs) (⟨taken.value, start⟩ :: tokens) finish rest := by
  unfold Cuts at h ⊢
  rw [readFrom, if_neg (by simp [hblank])]
  split
  · rename_i e heq
    exact absurd (heq.symm.trans htake) (by simp)
  · rename_i taken' heq
    obtain rfl := Except.ok.inj (heq.symm.trans htake)
    rw [h]
    cases readFrom finish rest <;> rfl

/-- A character that is a token of its own, whatever follows. -/
theorem single (hc : ofChar? c = some token) (hother : isBlank c = false ∧ c ≠ '$' ∧ c ≠ '/')
    (h : Cuts (start + 1) cs tokens finish rest) :
    Cuts start (c :: cs) (⟨token, start⟩ :: tokens) finish rest :=
  .cons hother.1 (take_ofChar? start hc hother.2.1 fun hslash => absurd hslash hother.2.2) h

theorem slash (hcs : cs.head? ≠ some '/') (h : Cuts (start + 1) cs tokens finish rest) :
    Cuts start ('/' :: cs) (⟨.slash, start⟩ :: tokens) finish rest :=
  .cons (by decide) (take_ofChar? start rfl (by decide) fun _ => hcs) h

theorem readFrom_eq (h : Cuts start cs tokens finish []) : readFrom start cs = .ok tokens := by
  unfold Cuts at h
  rw [h, readFrom]
  exact congrArg Except.ok (List.append_nil tokens)

end Cuts

/-! ### Names -/

theorem exists_braces {taken : Taken Token} (h : takeBraces start cs = .ok taken) :
    ∃ min max, taken.value = .braces min max := by
  unfold takeBraces at h
  dsimp only at h
  split at h
  · exact absurd h (by simp)
  · exact absurd h (by simp)
  split at h
  · split at h
    · exact absurd h (by simp)
    split at h
    · obtain rfl := Except.ok.inj h
      exact ⟨_, _, rfl⟩
    · exact absurd h (by simp)
  · split at h
    · obtain rfl := Except.ok.inj h
      exact ⟨_, _, rfl⟩
    · exact absurd h (by simp)

theorem ofChar?_ne_reference {name : String} (h : ofChar? c = some token) :
    token ≠ .reference name := by
  rintro rfl
  unfold ofChar? at h
  split at h <;> exact absurd h (by simp)

theorem ofChar?_ne_word {text : String} (h : ofChar? c = some token) : token ≠ .word text := by
  rintro rfl
  unfold ofChar? at h
  split at h <;> exact absurd h (by simp)

/-- A reference is a dollar sign and the word behind it. -/
theorem of_take_reference {taken : Taken Token} {name : String} (h : take start c cs = .ok taken)
    (hname : taken.value = .reference name) :
    cs.head?.any isWordChar = true ∧ name = String.ofList (takeWord cs).value ∧
      taken.rest = (takeWord cs).rest := by
  cases take_eq_ok_iff.mp h with
  | reference hword => exact ⟨hword, (Token.reference.inj hname).symm, rfl⟩
  | braces hbraces =>
      obtain ⟨min, max, hvalue⟩ := exists_braces hbraces
      exact absurd (hvalue.symm.trans hname) (by simp)
  | single hchar => exact absurd hname (ofChar?_ne_reference hchar)
  | doubleSlash | arrow | quoted | predicate | word => exact absurd hname (by simp)

theorem of_readFrom_cons {tokens : List (Placed Token)} (h : readFrom start (c :: cs) = .ok tokens) :
    isBlank c = true ∧ readFrom (start + c.utf8Size) cs = .ok tokens ∨
      ∃ taken more, take start c cs = .ok taken ∧
        readFrom (start + taken.width) taken.rest = .ok more ∧
          tokens = ⟨taken.value, start⟩ :: more := by
  rw [readFrom] at h
  split at h
  · rename_i hblank
    exact .inl ⟨hblank, h⟩
  · split at h
    · exact absurd h (by simp)
    · rename_i taken htake
      cases hmore : readFrom (start + taken.width) taken.rest with
      | error e =>
          rw [hmore] at h
          exact absurd (show Except.error e = Except.ok tokens from h) (by simp)
      | ok more =>
          rw [hmore] at h
          exact .inr ⟨taken, more, htake, hmore, (Except.ok.inj h).symm⟩

theorem mem_arrow_of_readFrom {tokens : List (Placed Token)}
    (h : readFrom start ('-' :: '>' :: rest) = .ok tokens) :
    ∃ position, ⟨.arrow, position⟩ ∈ tokens := by
  rcases of_readFrom_cons h with ⟨hblank, -⟩ | ⟨taken, more, htake, -, rfl⟩
  · exact absurd hblank (by decide)
  · rw [take] at htake
    obtain rfl := Except.ok.inj htake
    exact ⟨start, List.mem_cons_self⟩

/-- **The name of a reference is a word, and it is empty only before an arrow.** -/
theorem name_of_readFrom : ∀ (cs : List Char) {start : Nat} {tokens : List (Placed Token)}
    {name : String} {position : Nat}, readFrom start cs = .ok tokens →
    ⟨.reference name, position⟩ ∈ tokens →
      (∀ c ∈ name.toList, isWordChar c = true) ∧
        (name.toList = [] → ∃ position, ⟨.arrow, position⟩ ∈ tokens)
  | [], start, tokens, name, position, h, hmem => by
      rw [readFrom] at h
      obtain rfl := Except.ok.inj h
      exact absurd hmem (by simp)
  | c :: cs, start, tokens, name, position, h, hmem => by
      rcases of_readFrom_cons h with ⟨-, h⟩ | ⟨taken, more, htake, hmore, rfl⟩
      · exact name_of_readFrom cs h hmem
      have hle : taken.rest.length ≤ cs.length := length_rest_take htake
      rcases List.mem_cons.mp hmem with hmem | hmem
      · obtain ⟨hvalue, -⟩ := Placed.mk.inj hmem
        obtain ⟨hword, rfl, hrest⟩ := of_take_reference htake hvalue.symm
        rw [String.toList_ofList]
        refine ⟨isWordChar_of_mem_takeWord, fun hnil => ?_⟩
        -- what is left starts with the arrow that ended the name
        obtain ⟨after, rfl, hafter⟩ := arrow_of_takeWord_nil hword hnil
        rw [hrest, hafter] at hmore
        obtain ⟨position, hmem⟩ := mem_arrow_of_readFrom hmore
        exact ⟨position, List.mem_cons_of_mem _ hmem⟩
      · obtain ⟨hword, harrow⟩ := name_of_readFrom taken.rest hmore hmem
        refine ⟨hword, fun hnil => ?_⟩
        obtain ⟨position, hmem⟩ := harrow hnil
        exact ⟨position, List.mem_cons_of_mem _ hmem⟩
  termination_by cs => cs.length

end TreeRules.Token
