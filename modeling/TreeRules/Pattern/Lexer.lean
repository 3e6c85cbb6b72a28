/-
Cutting the text of a pattern, a template or a rule into tokens.

  * Blanks stand between tokens and mean nothing else.
  * A word goes on as long as word characters follow, but stops before an arrow, so that an arrow
    needs no blank before it.
  * A dollar sign before a word character starts a reference to a name, which is read like a word.
-/
import TreeRules.Pattern.Error
import TreeRules.Text.Blank
import TreeRules.Text.Letter
import TreeRules.Text.Width

namespace TreeRules.Token

open TreeRules.Text

/-! ### The longer tokens -/

/-- Takes word characters off the front, up to an arrow. -/
def takeWord : List Char → Taken (List Char)
  | [] => ⟨[], 0, []⟩
  | c :: cs =>
    if isWordChar c && !(c == '-' && cs.head? == some '>') then
      (takeWord cs).cons c c.utf8Size
    else ⟨[], 0, c :: cs⟩

/-- Takes a quoted text off the front, whose opening quote has been taken.  A backslash stands for
the character after it. -/
def takeQuoted : List Char → Option (Taken (List Char))
  | [] => none
  | '\\' :: [] => none
  | '\\' :: c :: cs => (takeQuoted cs).map (·.cons c (1 + c.utf8Size))
  | c :: cs =>
    if c = '"' then some ⟨[], 1, cs⟩ else (takeQuoted cs).map (·.cons c c.utf8Size)

/-- Takes the name of a predicate off the front, whose opening bracket has been taken.  Blanks
around the name do not belong to it. -/
def takePredicate (cs : List Char) : Except SyntaxFault (Taken (List Char)) :=
  let inner := cs.takeWhile (· != ']')
  match cs.dropWhile (· != ']') with
  | [] => .error .unterminatedPredicate
  | _ :: rest =>
    let name := trim inner
    if name.isEmpty then .error .emptyPredicate else .ok ⟨name, byteWidth inner + 1, rest⟩

/-- Takes blanks off the front. -/
def takeBlanks (cs : List Char) : Taken Unit :=
  ⟨(), byteWidth (cs.takeWhile isBlank), cs.dropWhile isBlank⟩

/-- Takes a number off the front, if a digit stands there. -/
def takeNumber (cs : List Char) : Except QuantifierFault (Taken (Option Nat)) :=
  let digits := cs.takeWhile Char.isDigit
  let rest := cs.dropWhile Char.isDigit
  if digits.isEmpty then .ok ⟨none, 0, rest⟩
  else
    let n := digits.foldl (fun n d => 10 * n + (d.toNat - '0'.toNat)) 0
    if n < Nat.pow 2 32 then .ok ⟨some n, digits.length, rest⟩
    else .error (.tooLarge (String.ofList digits))

/-- Takes a comma off the front, if one stands there. -/
def takeComma (cs : List Char) : Taken Bool :=
  match cs with
  | ',' :: rest => ⟨true, 1, rest⟩
  | _ => ⟨false, 0, cs⟩

/-- Takes bounds off the front, whose opening brace stands at `start` and has been taken. -/
def takeBraces (start : Nat) (cs : List Char) : Except CompileError (Taken Token) :=
  let malformed := Except.error (.malformed .malformedBraces start)
  let blanks₁ := takeBlanks cs
  match takeNumber blanks₁.rest with
  | .error fault => .error (.invalidQuantifier fault start)
  | .ok ⟨none, _, _⟩ => malformed
  | .ok ⟨some min, minWidth, rest⟩ =>
    let blanks₂ := takeBlanks rest
    let comma := takeComma blanks₂.rest
    let width := blanks₁.width + minWidth + blanks₂.width + comma.width
    if comma.value then
      let blanks₃ := takeBlanks comma.rest
      match takeNumber blanks₃.rest with
      | .error fault => .error (.invalidQuantifier fault start)
      | .ok max =>
        let blanks₄ := takeBlanks max.rest
        match blanks₄.rest with
        | '\x7d' :: rest =>
          .ok ⟨.braces min max.value,
            width + blanks₃.width + max.width + blanks₄.width + 1, rest⟩
        | _ => malformed
    else
      match comma.rest with
      | '\x7d' :: rest => .ok ⟨.braces min (some min), width + 1, rest⟩
      | _ => malformed

/-! ### One token -/

/-- A token of one character. -/
def ofChar? : Char → Option Token
  | '.' => some .dot
  | '/' => some .slash
  | ',' => some .comma
  | '&' => some .ampersand
  | '|' => some .bar
  | '(' => some .openParen
  | ')' => some .closeParen
  | '?' => some .question
  | '*' => some .star
  | '+' => some .plus
  | ':' => some .colon
  | '$' => some .dollar
  | '>' => some .up
  | _ => none

/-- Takes the token off the front that starts with `c`, a character that is not a blank and stands
at `start`. -/
def take (start : Nat) (c : Char) (cs : List Char) : Except CompileError (Taken Token) :=
  match c, cs with
  | '/', '/' :: rest => .ok ⟨.doubleSlash, 2, rest⟩
  | '-', '>' :: rest => .ok ⟨.arrow, 2, rest⟩
  | '"', cs =>
    match takeQuoted cs with
    | none => .error (.malformed .unterminatedQuote start)
    | some text => .ok ⟨.quoted (String.ofList text.value), 1 + text.width, text.rest⟩
  | '[', cs =>
    match takePredicate cs with
    | .error fault => .error (.malformed fault start)
    | .ok name => .ok ⟨.predicate (String.ofList name.value), 1 + name.width, name.rest⟩
  | '\x7b', cs =>
    match takeBraces start cs with
    | .error e => .error e
    | .ok bounds => .ok { bounds with width := 1 + bounds.width }
  | c, cs =>
    if c = '$' && cs.head?.any isWordChar then
      let name := takeWord cs
      .ok ⟨.reference (String.ofList name.value), 1 + name.width, name.rest⟩
    else match ofChar? c with
      | some token => .ok ⟨token, 1, cs⟩
      | none =>
        if isWordChar c then
          let word := (takeWord cs).cons c c.utf8Size
          .ok ⟨.word (String.ofList word.value), word.width, word.rest⟩
        else .error (.malformed (.unexpectedChar c) start)

/-! ### Nothing is read twice -/

theorem length_rest_takeWord (cs : List Char) : (takeWord cs).rest.length ≤ cs.length := by
  induction cs with
  | nil => simp [takeWord]
  | cons c cs ih =>
    rw [takeWord]
    split
    · simp [Taken.cons]; omega
    · simp

theorem length_rest_takeQuoted {cs : List Char} {taken : Taken (List Char)}
    (h : takeQuoted cs = some taken) : taken.rest.length ≤ cs.length := by
  fun_induction takeQuoted cs generalizing taken with
  | case1 => simp at h
  | case2 => simp at h
  | case3 c cs ih =>
    obtain ⟨inner, hinner, rfl⟩ := Option.map_eq_some_iff.1 h
    have := ih hinner
    simp [Taken.cons]
    omega
  | case4 cs =>
    obtain rfl := Option.some.inj h
    simp
  | case5 c cs _ _ _ ih =>
    obtain ⟨inner, hinner, rfl⟩ := Option.map_eq_some_iff.1 h
    have := ih hinner
    simp [Taken.cons]
    omega

theorem length_dropWhile_le (p : Char → Bool) (cs : List Char) :
    (cs.dropWhile p).length ≤ cs.length :=
  (List.dropWhile_sublist p).length_le

theorem length_rest_takePredicate {cs : List Char} {taken : Taken (List Char)}
    (h : takePredicate cs = .ok taken) : taken.rest.length ≤ cs.length := by
  simp only [takePredicate] at h
  split at h
  · simp at h
  · next rest hrest =>
    split at h
    · simp at h
    · obtain rfl := Except.ok.inj h
      have := length_dropWhile_le (· != ']') cs
      simp [hrest] at this
      simp
      omega

theorem length_rest_takeNumber {cs : List Char} {taken : Taken (Option Nat)}
    (h : takeNumber cs = .ok taken) : taken.rest.length ≤ cs.length := by
  simp only [takeNumber] at h
  have := length_dropWhile_le Char.isDigit cs
  split at h
  · obtain rfl := Except.ok.inj h
    simpa using this
  · split at h
    · obtain rfl := Except.ok.inj h
      simpa using this
    · simp at h

theorem length_rest_takeComma (cs : List Char) : (takeComma cs).rest.length ≤ cs.length := by
  unfold takeComma
  split <;> simp

theorem length_rest_takeBraces {start : Nat} {cs : List Char} {taken : Taken Token}
    (h : takeBraces start cs = .ok taken) : taken.rest.length ≤ cs.length := by
  have hblanks (cs : List Char) : (takeBlanks cs).rest.length ≤ cs.length :=
    length_dropWhile_le isBlank cs
  simp only [takeBraces] at h
  split at h
  · simp at h
  · simp at h
  · next min width rest hmin =>
    have h₁ := hblanks cs
    have h₂ := length_rest_takeNumber hmin
    have h₃ := hblanks rest
    have h₄ := length_rest_takeComma (takeBlanks rest).rest
    simp only at h₂
    split at h
    · split at h
      · simp at h
      · next max hmax =>
        have h₅ := hblanks (takeComma (takeBlanks rest).rest).rest
        have h₆ := length_rest_takeNumber hmax
        have h₇ := hblanks max.rest
        split at h
        · next rest' hrest' =>
          obtain rfl := Except.ok.inj h
          rw [hrest'] at h₇
          simp only [List.length_cons] at h₇
          simp only
          omega
        · simp at h
    · split at h
      · next rest' hrest' =>
        obtain rfl := Except.ok.inj h
        rw [hrest'] at h₄
        simp only [List.length_cons] at h₄
        simp only
        omega
      · simp at h

theorem length_rest_take {start : Nat} {c : Char} {cs : List Char} {taken : Taken Token}
    (h : take start c cs = .ok taken) : taken.rest.length ≤ cs.length := by
  unfold take at h
  split at h
  · obtain rfl := Except.ok.inj h; simp
  · obtain rfl := Except.ok.inj h; simp
  · split at h
    · simp at h
    · next text htext =>
      obtain rfl := Except.ok.inj h
      exact length_rest_takeQuoted htext
  · split at h
    · simp at h
    · next name hname =>
      obtain rfl := Except.ok.inj h
      exact length_rest_takePredicate hname
  · split at h
    · simp at h
    · next bounds hbounds =>
      obtain rfl := Except.ok.inj h
      have := length_rest_takeBraces hbounds
      exact this
  · split at h
    · obtain rfl := Except.ok.inj h
      exact length_rest_takeWord _
    · split at h
      · obtain rfl := Except.ok.inj h; simp
      · split at h
        · obtain rfl := Except.ok.inj h
          exact length_rest_takeWord _
        · simp at h

/-! ### All tokens -/

/-- Cuts a text that starts at position `start` into tokens. -/
def readFrom (start : Nat) : List Char → Except CompileError (List (Placed Token))
  | [] => .ok []
  | c :: cs =>
    if isBlank c then readFrom (start + c.utf8Size) cs
    else match h : take start c cs with
      | .error e => .error e
      | .ok taken => do
        have := length_rest_take h
        return ⟨taken.value, start⟩ :: (← readFrom (start + taken.width) taken.rest)
  termination_by cs => cs.length

/-- Cuts a text into tokens. -/
def readAll (text : String) : Except CompileError (List (Placed Token)) :=
  readFrom 0 text.toList

end TreeRules.Token
