/-
The references of a template.

In the text of a template every dollar sign outside of quotes starts a reference.  So the references
are told by the text alone: going from one character to the next it is enough to know whether what
comes is quoted.  Cutting the text into tokens comes to the same, by one case for each token that a
template may have, and the nodes that are read keep the tokens in their order, however they are
nested.

Since they come in the order of the text, the first reference that is found to be undeclared is the
leftmost.
-/
import TreeRules.Proofs.Pattern.Accepts
import TreeRules.Proofs.Pattern.Append
import TreeRules.Proofs.Template.Written

namespace TreeRules

open TreeRules.Text

variable {name : String} {position start : Nat} {cs part rest : List Char}

/-! ### References in a text -/

/-- Whether the next character of a text is quoted. -/
inductive Quoting where
  | outside
  | inside
  /-- A backslash has come before it. -/
  | escaped
  deriving DecidableEq

namespace Quoting

/-- What a character changes. -/
def next : Quoting → Char → Quoting
  | outside, c => if c = '"' then inside else outside
  | inside, c => if c = '"' then outside else if c = '\\' then escaped else inside
  | escaped, _ => inside

/-- What some characters change. -/
def after (q : Quoting) (part : List Char) : Quoting := part.foldl next q

end Quoting

namespace Text

/-- At that position a dollar sign stands outside of quotes, and the word characters behind it are
the name. -/
def Refers (cs : List Char) (name : String) (position : Nat) : Prop :=
  ∃ before behind, cs = before ++ '$' :: behind ∧ Quoting.outside.after before = .outside ∧
    position = byteWidth before ∧ name = String.ofList (behind.takeWhile isWordChar)

/-- The dollar signs outside of quotes in a text that starts at `start`, with the names behind
them. -/
def dollars (start : Nat) (q : Quoting) : List Char → List (String × Nat)
  | [] => []
  | c :: cs =>
    let later := dollars (start + c.utf8Size) (q.next c) cs
    if q = .outside ∧ c = '$' then (String.ofList (cs.takeWhile isWordChar), start) :: later
    else later

theorem mem_dollars_iff {q : Quoting} : (name, position) ∈ dollars start q cs ↔
    ∃ before behind, cs = before ++ '$' :: behind ∧ q.after before = .outside ∧
      position = start + byteWidth before ∧ name = String.ofList (behind.takeWhile isWordChar) := by
  induction cs generalizing start q with
  | nil => simp [dollars]
  | cons c cs ih =>
      have hlater : (name, position) ∈ dollars (start + c.utf8Size) (q.next c) cs ↔
          ∃ before behind, c :: cs = c :: before ++ '$' :: behind ∧
            q.after (c :: before) = .outside ∧ position = start + byteWidth (c :: before) ∧
              name = String.ofList (behind.takeWhile isWordChar) := by
        simp [ih, Quoting.after, Nat.add_assoc]
      rw [dollars]
      constructor
      · intro h
        split at h
        · rename_i hhere
          obtain ⟨rfl, rfl⟩ := hhere
          rcases List.mem_cons.mp h with heq | h
          · obtain ⟨rfl, rfl⟩ := Prod.mk.inj heq
            exact ⟨[], cs, rfl, rfl, rfl, rfl⟩
          · obtain ⟨before, behind, hafter⟩ := hlater.mp h
            exact ⟨_, behind, hafter⟩
        · obtain ⟨before, behind, hafter⟩ := hlater.mp h
          exact ⟨_, behind, hafter⟩
      · rintro ⟨before, behind, hcs, hafter, hposition, hname⟩
        cases before with
        | nil =>
            obtain ⟨rfl, rfl⟩ := List.cons.inj hcs
            obtain rfl : q = .outside := hafter
            rw [if_pos ⟨rfl, rfl⟩, hname, hposition]
            exact List.mem_cons_self
        | cons d before =>
            obtain ⟨rfl, -⟩ := List.cons.inj hcs
            have hmem := hlater.mpr ⟨before, behind, hcs, hafter, hposition, hname⟩
            split
            · exact List.mem_cons_of_mem _ hmem
            · exact hmem

/-- What the dollar signs outside of quotes start is what the text refers to. -/
theorem mem_dollars_iff_refers :
    (name, position) ∈ dollars 0 .outside cs ↔ Refers cs name position := by
  rw [mem_dollars_iff]
  simp only [Nat.zero_add]
  exact Iff.rfl

/-- **They are listed from left to right.** -/
theorem pairwise_dollars (start : Nat) (q : Quoting) (cs : List Char) :
    (dollars start q cs).Pairwise (·.2 < ·.2) := by
  induction cs generalizing start q with
  | nil => exact List.Pairwise.nil
  | cons c cs ih =>
      rw [dollars]
      split
      · refine List.Pairwise.cons (fun later hlater => ?_) (ih _ _)
        obtain ⟨before, -, -, -, hposition, -⟩ := mem_dollars_iff.mp hlater
        have hpos := c.utf8Size_pos
        show start < later.2
        omega
      · exact ih _ _

/-- Nothing is found where neither a quote nor a dollar sign stands. -/
theorem dollars_skip (h : ∀ c ∈ part, c ≠ '"' ∧ c ≠ '$') (start : Nat) :
    dollars start .outside (part ++ rest) = dollars (start + byteWidth part) .outside rest := by
  induction part generalizing start with
  | nil => rfl
  | cons c part ih =>
      obtain ⟨⟨hquote, hdollar⟩, hpart⟩ := List.forall_mem_cons.mp h
      have hnext : Quoting.outside.next c = .outside := if_neg hquote
      rw [List.cons_append, dollars, hnext, ih hpart, byteWidth_cons, ← Nat.add_assoc]
      exact if_neg fun hhere => hdollar hhere.2

/-- Nothing is found in what is quoted. -/
theorem dollars_quoted {taken : Taken (List Char)} (h : Token.takeQuoted cs = some taken)
    (start : Nat) :
    dollars start .inside cs = dollars (start + taken.width) .outside taken.rest := by
  fun_induction Token.takeQuoted cs generalizing taken start with
  | case1 => simp at h
  | case2 => simp at h
  | case3 c cs ih =>
      obtain ⟨inner, hinner, rfl⟩ := Option.map_eq_some_iff.mp h
      have hwidth : start + 1 + c.utf8Size + inner.width = start + (1 + c.utf8Size + inner.width) := by
        omega
      rw [dollars, dollars]
      exact (ih hinner _).trans (congrArg (dollars · _ _) hwidth)
  | case4 cs =>
      obtain rfl := Option.some.inj h
      rw [dollars]
      rfl
  | case5 c cs hescaped hlast hquote ih =>
      obtain ⟨inner, hinner, rfl⟩ := Option.map_eq_some_iff.mp h
      have hbackslash : c ≠ '\\' := by
        rintro rfl
        cases cs with
        | nil => exact hescaped rfl rfl
        | cons d cs => exact hlast d cs rfl rfl
      have hnext : Quoting.inside.next c = .inside := by
        rw [Quoting.next, if_neg hquote, if_neg hbackslash]
      rw [dollars, hnext, ih hinner, Nat.add_assoc]
      exact if_neg (by simp)

end Text

/-! ### References among tokens -/

namespace Token

/-- A template may have the token. -/
def inTemplate : Token → Bool
  | word _ | quoted _ | reference _ | slash | comma | openParen | closeParen => true
  | _ => false

/-- Where no arrow comes, a word goes on as long as word characters do. -/
theorem takeWhile_eq_takeWord (h : ∀ behind, (takeWord cs).rest ≠ '-' :: '>' :: behind) :
    cs.takeWhile isWordChar = (takeWord cs).value := by
  induction cs with
  | nil => rfl
  | cons c cs ih =>
      rw [takeWord] at h ⊢
      split
      · rename_i hc
        have hword : isWordChar c = true := (Bool.and_eq_true _ _ ▸ hc).1
        rw [if_pos hc] at h
        rw [List.takeWhile_cons, if_pos hword, ih h]
        rfl
      · rename_i hc
        rw [if_neg hc] at h
        rw [List.takeWhile_cons, if_neg]
        intro hword
        -- a word character that is not taken is the first one of an arrow
        simp only [hword, Bool.true_and, Bool.not_eq_true', Bool.not_eq_false, Bool.and_eq_true,
          beq_iff_eq] at hc
        obtain ⟨rfl, hup⟩ := hc
        obtain ⟨behind, rfl⟩ := List.head?_eq_some_iff.mp hup
        exact h behind rfl

/-- A word has no quotes and no dollar signs. -/
theorem ne_of_isWordChar {c : Char} (h : isWordChar c = true) : c ≠ '"' ∧ c ≠ '$' := by
  constructor
  · rintro rfl
    exact absurd h (by decide)
  · rintro rfl
    exact absurd h (by decide)

theorem ne_of_isBlank {c : Char} (h : isBlank c = true) : c ≠ '"' ∧ c ≠ '$' := by
  constructor
  · rintro rfl
    exact absurd h (by decide)
  · rintro rfl
    exact absurd h (by decide)

/-- Words are gone past. -/
theorem dollars_takeWord (start : Nat) (cs : List Char) :
    dollars start .outside cs =
      dollars (start + (takeWord cs).width) .outside (takeWord cs).rest := by
  obtain ⟨hcs, hwidth⟩ := takeWord_eq cs
  rw [hwidth, ← dollars_skip fun c hc => ne_of_isWordChar (isWordChar_of_mem_takeWord c hc), ← hcs]

end Token

namespace Grammar

mutual

theorem Node.inTemplate : ∀ node : Node, ∀ token ∈ node.tokens, token.value.inTemplate = true
  | .literal ⟨literal, _⟩ beneath => by
      rw [Node.tokens, List.forall_mem_cons]
      refine ⟨?_, beneath.inTemplate⟩
      cases literal <;> rfl
  | .reference name => by
      rw [Node.tokens, List.forall_mem_singleton]
      rfl

theorem Beneath.inTemplate :
    ∀ beneath : Beneath, ∀ token ∈ beneath.tokens, token.value.inTemplate = true
  | .nothing => by
      rw [Beneath.tokens]
      exact List.forall_mem_nil _
  | .one _ only => by
      rw [Beneath.tokens, List.forall_mem_cons]
      exact ⟨rfl, only.inTemplate⟩
  | .several _ _ nodes _ => by
      rw [several_tokens_eq, List.forall_mem_cons, List.forall_mem_cons, List.forall_mem_append,
        List.forall_mem_singleton]
      exact ⟨rfl, rfl, nodes.inTemplate, rfl⟩

theorem Nodes.inTemplate : ∀ nodes : Nodes, ∀ token ∈ nodes.tokens, token.value.inTemplate = true
  | .mk first others => by
      rw [Nodes.tokens, List.forall_mem_append]
      exact ⟨first.inTemplate, others.inTemplate⟩

theorem MoreNodes.inTemplate :
    ∀ others : MoreNodes, ∀ token ∈ others.tokens, token.value.inTemplate = true
  | .nil => by
      rw [MoreNodes.tokens]
      exact List.forall_mem_nil _
  | .cons _ next others => by
      rw [MoreNodes.tokens, List.cons_append, List.forall_mem_cons, List.forall_mem_append]
      exact ⟨rfl, next.inTemplate, others.inTemplate⟩

end

/-- The reference that a token of a template is, and the dollar sign that it begins with. -/
theorem captureReference?_begins {c : Char} {taken : Taken Token} (h : Token.Begins start c cs taken)
    (htoken : taken.value.inTemplate = true)
    (harrow : ∀ behind, taken.rest ≠ '-' :: '>' :: behind) :
    (dollars start .outside (c :: cs)).filter (·.1 != "0") =
      (captureReference? ⟨taken.value, start⟩).toList ++
        (dollars (start + taken.width) .outside taken.rest).filter (·.1 != "0") := by
  cases h with
  | doubleSlash | arrow | predicate => cases htoken
  | braces h =>
      obtain ⟨min, max, hvalue⟩ := Token.exists_braces h
      exact absurd (hvalue ▸ htoken) (by simp [Token.inTemplate])
  | quoted h =>
      have hquote : dollars start .outside ('"' :: cs) = dollars (start + 1) .inside cs := rfl
      rw [hquote, dollars_quoted h, Nat.add_assoc]
      rfl
  | reference h =>
      have hdollar : dollars start .outside ('$' :: cs) =
          (String.ofList (Token.takeWord cs).value, start) :: dollars (start + 1) .outside cs := by
        rw [← Token.takeWhile_eq_takeWord harrow]
        rfl
      rw [hdollar, Token.dollars_takeWord, Nat.add_assoc]
      by_cases hname : String.ofList (Token.takeWord cs).value = "0"
      · have hnone : captureReference?
            ⟨.reference (String.ofList (Token.takeWord cs).value), start⟩ = none := if_pos hname
        rw [hnone, List.filter_cons_of_neg (by simpa using hname)]
        rfl
      · rw [captureReference?_reference hname, List.filter_cons_of_pos (by simpa using hname)]
        rfl
  | @single c cs token h =>
      have hnone : captureReference? ⟨token, start⟩ = none := by
        cases token with
        | reference name => exact absurd rfl (Token.ofChar?_ne_reference h)
        | _ => rfl
      have hother : c ≠ '"' ∧ c ≠ '$' := by
        constructor
        · rintro rfl
          cases h
        · rintro rfl
          obtain rfl := Option.some.inj h
          cases htoken
      rw [hnone, ← List.singleton_append, dollars_skip (by simpa using hother), byteWidth_cons,
        Token.utf8Size_of_ofChar? h]
      rfl
  | word h =>
      have hskip : dollars start .outside (c :: cs) = dollars (start + c.utf8Size) .outside cs := by
        rw [← List.singleton_append,
          dollars_skip (by simpa using Token.ne_of_isWordChar h), byteWidth_cons, byteWidth_nil,
          Nat.add_zero]
      rw [hskip, Token.dollars_takeWord, Nat.add_assoc]
      rfl

/-- **The references of a template's tokens are those that its text has.** -/
theorem filterMap_captureReference? : ∀ (cs : List Char) {start : Nat} {tokens : List (Placed Token)},
    Token.readFrom start cs = .ok tokens → (∀ token ∈ tokens, token.value.inTemplate = true) →
      tokens.filterMap captureReference? = (dollars start .outside cs).filter (·.1 != "0")
  | [], start, tokens, h, _ => by
      rw [Token.readFrom] at h
      obtain rfl := Except.ok.inj h
      rfl
  | c :: cs, start, tokens, h, htokens => by
      cases hblank : isBlank c with
      | true =>
          rw [Token.readFrom, if_pos hblank] at h
          rw [filterMap_captureReference? cs h htokens, ← List.singleton_append (x := c),
            dollars_skip (by simpa using Token.ne_of_isBlank hblank), byteWidth_cons, byteWidth_nil,
            Nat.add_zero]
      | false =>
          obtain ⟨taken, more, hbegins, hmore, rfl⟩ :=
            Token.of_readFrom_cons_of_not_isBlank hblank h
          obtain ⟨htoken, htokens⟩ := List.forall_mem_cons.mp htokens
          have hle := hbegins.length_rest_le
          have harrow : ∀ behind, taken.rest ≠ '-' :: '>' :: behind := by
            intro behind heq
            rw [heq] at hmore
            obtain ⟨position, hmem⟩ := Token.mem_arrow_of_readFrom hmore
            exact Bool.noConfusion (htokens _ hmem)
          have hlater := filterMap_captureReference? taken.rest hmore htokens
          rw [captureReference?_begins hbegins htoken harrow, ← hlater, List.filterMap_cons]
          cases captureReference? ⟨taken.value, start⟩ <;> rfl
  termination_by cs => cs.length

end Grammar

/-! ### The walk through the nodes -/

namespace TemplateNode

theorem headsOf_append (nodes nodes' : List TemplateNode) :
    headsOf (nodes ++ nodes') = headsOf nodes ++ headsOf nodes' := by
  induction nodes with
  | nil => rfl
  | cons node nodes ih => rw [List.cons_append, headsOf, headsOf, ih, List.append_assoc]

/-- The references of the nodes on a stack.  A node's children take its place. -/
def referencesFrom : List TemplateNode → List (String × Nat)
  | [] => []
  | .node (.capture name position) children :: pending =>
    (name, position) :: referencesFrom (children ++ pending)
  | .node (.literal _) children :: pending | .node .target children :: pending =>
    referencesFrom (children ++ pending)
termination_by pending => (headsOf pending).length
decreasing_by all_goals simp [headsOf, heads, headsOf_append]

theorem referencesOf_append (nodes nodes' : List TemplateNode) :
    referencesOf (nodes ++ nodes') = referencesOf nodes ++ referencesOf nodes' := by
  induction nodes with
  | nil => rfl
  | cons node nodes ih =>
      rw [List.cons_append, referencesOf, referencesOf, ih, List.append_assoc]

/-- The stack comes to the references in their order. -/
theorem referencesFrom_eq (pending : List TemplateNode) :
    referencesFrom pending = referencesOf pending := by
  induction pending using referencesFrom.induct with
  | case1 => rw [referencesFrom, referencesOf]
  | case2 name position children pending ih =>
      rw [referencesFrom, ih, referencesOf_append, referencesOf, references]
      rfl
  | case3 text children pending ih =>
      rw [referencesFrom, ih, referencesOf_append, referencesOf, references]
      exact fun _ _ => TemplateHead.noConfusion
  | case4 children pending ih =>
      rw [referencesFrom, ih, referencesOf_append, referencesOf, references]
      exact fun _ _ => TemplateHead.noConfusion

end TemplateNode

/-! ### The leftmost reference -/

/-- What is found first in a list that is in order comes before whatever else could be found. -/
theorem find?_eq_some_iff_of_pairwise {α : Type} {l : List α} {place : α → Nat} {p : α → Bool} {a : α}
    (hl : l.Pairwise (place · < place ·)) :
    l.find? p = some a ↔ a ∈ l ∧ p a = true ∧ ∀ b ∈ l, p b = true → place a ≤ place b := by
  induction l with
  | nil => simp
  | cons first l ih =>
      obtain ⟨hfirst, hl⟩ := List.pairwise_cons.mp hl
      by_cases hp : p first = true
      · rw [List.find?_cons_of_pos hp]
        constructor
        · intro h
          obtain rfl := Option.some.inj h
          refine ⟨List.mem_cons_self, hp, fun b hb _ => ?_⟩
          rcases List.mem_cons.mp hb with rfl | hb
          · exact Nat.le_refl _
          · exact Nat.le_of_lt (hfirst b hb)
        · rintro ⟨ha, -, hleast⟩
          rcases List.mem_cons.mp ha with rfl | ha
          · rfl
          · exact absurd (hleast first List.mem_cons_self hp) (Nat.not_le.mpr (hfirst a ha))
      · rw [List.find?_cons_of_neg hp, ih hl]
        constructor
        · rintro ⟨ha, hpa, hleast⟩
          refine ⟨List.mem_cons_of_mem _ ha, hpa, fun b hb hpb => ?_⟩
          rcases List.mem_cons.mp hb with rfl | hb
          · exact absurd hpb hp
          · exact hleast b hb hpb
        · rintro ⟨ha, hpa, hleast⟩
          rcases List.mem_cons.mp ha with rfl | ha
          · exact absurd hpa hp
          · exact ⟨ha, hpa, fun b hb => hleast b (List.mem_cons_of_mem _ hb)⟩

/-- The reference at that position is the leftmost of those in the text, other than to the target,
whose names are not declared. -/
structure LeftmostUndeclared (cs : List Char) (declared : List String) (name : String)
    (position : Nat) : Prop where
  refers : Refers cs name position
  not_target : name ≠ "0"
  undeclared : name ∉ declared
  leftmost : ∀ name' position', Refers cs name' position' → name' ≠ "0" → name' ∉ declared →
    position ≤ position'

namespace Template

open Grammar

variable {text : String} {t : Template}

theorem references_eq (h : read text = .ok t) :
    t.references = (dollars 0 .outside text.toList).filter (·.1 != "0") := by
  obtain ⟨roots, htokens, rfl⟩ := of_read h
  cases roots with
  | none => exact filterMap_captureReference? _ htokens (List.forall_mem_nil _)
  | some nodes =>
      rw [← filterMap_captureReference? _ htokens nodes.inTemplate]
      exact nodes.references

/-- A template has the references that its text has. -/
theorem mem_references_iff (h : read text = .ok t) : (name, position) ∈ t.references ↔
    Refers text.toList name position ∧ name ≠ "0" := by
  rw [references_eq h, List.mem_filter, mem_dollars_iff_refers]
  simp

theorem check_eq_error_iff {declared : List String} {e : CompileError} :
    t.check declared = .error e ↔ ∃ name position, e = .undeclaredCapture name position ∧
      t.undeclared? declared = some (name, position) := by
  unfold check
  split
  · rename_i hnone
    simp [hnone]
  · rename_i name position hsome
    rw [hsome]
    constructor
    · intro h
      exact ⟨name, position, (Except.error.inj h).symm, rfl⟩
    · rintro ⟨name', position', rfl, heq⟩
      obtain ⟨rfl, rfl⟩ := Prod.mk.inj (Option.some.inj heq)
      rfl

/-- **The leftmost reference that is not declared is the one that is reported.**

The references of a template that is read are those of its text: the dollar signs outside of quotes
with the names behind them, but for those that stand for the target.  They are listed with their
positions, each once, from left to right, and a walk that keeps a stack of nodes comes to them in
that order.  So whatever names are declared, a template is accepted if all names that its text refers
to are among them, and if it is not, the error names the leftmost reference that is undeclared. -/
theorem references_of_read (h : read text = .ok t) :
    t.references.Pairwise (·.2 < ·.2) ∧
    (∀ name position, (name, position) ∈ t.references ↔
      Refers text.toList name position ∧ name ≠ "0") ∧
    TemplateNode.referencesFrom t.roots = t.references ∧
    (∀ declared, t.check declared = .ok () ↔
      ∀ name position, Refers text.toList name position → name ≠ "0" → name ∈ declared) ∧
    ∀ declared e, t.check declared = .error e ↔
      ∃ name position, e = .undeclaredCapture name position ∧
        LeftmostUndeclared text.toList declared name position := by
  have hordered : t.references.Pairwise (·.2 < ·.2) := by
    rw [references_eq h]
    exact (pairwise_dollars 0 .outside text.toList).filter _
  refine ⟨hordered, fun name position => mem_references_iff h, TemplateNode.referencesFrom_eq _,
    fun declared => ?_, fun declared e => ?_⟩
  · rw [check_eq_ok]
    simp only [mem_references_iff h, and_imp]
  · rw [check_eq_error_iff]
    refine exists_congr fun name => exists_congr fun position => and_congr_right fun _ => ?_
    rw [undeclared?, find?_eq_some_iff_of_pairwise hordered, mem_references_iff h]
    constructor
    · rintro ⟨⟨hrefers, htarget⟩, hundeclared, hleast⟩
      refine ⟨hrefers, htarget, by simpa using hundeclared, ?_⟩
      intro name' position' hrefers' htarget' hundeclared'
      exact hleast (name', position') ((mem_references_iff h).mpr ⟨hrefers', htarget'⟩)
        (by simpa using hundeclared')
    · rintro ⟨hrefers, htarget, hundeclared, hleast⟩
      refine ⟨⟨hrefers, htarget⟩, by simpa using hundeclared, ?_⟩
      rintro ⟨name', position'⟩ hmem hundeclared'
      obtain ⟨hrefers', htarget'⟩ := (mem_references_iff h).mp hmem
      exact hleast name' position' hrefers' htarget' (by simpa using hundeclared')

/-- A dollar sign in quotes, references beneath one another and twice to one name, and one to the
target. -/
def scattered : Template :=
  ⟨[.node (.literal "$no é") [.node (.capture "x" 10) [],
      .node (.literal "é") [.node (.capture "y" 17) []], .node (.capture "x" 21) []],
    .node .target [], .node (.capture "z" 30) []]⟩

theorem references_of_read_scattered :
    read "\"$no é\"/($x, é/$y, $x), $0, $z" = .ok scattered ∧
      scattered.references = [("x", 10), ("y", 17), ("x", 21), ("z", 30)] ∧
      TemplateNode.referencesFrom scattered.roots = scattered.references ∧
      Refers "\"$no é\"/($x, é/$y, $x), $0, $z".toList "y" 17 ∧
      scattered.check ["x", "y", "z"] = .ok () ∧
      scattered.check ["x"] = .error (.undeclaredCapture "y" 17) ∧
      LeftmostUndeclared "\"$no é\"/($x, é/$y, $x), $0, $z".toList ["x"] "y" 17 := by
  have hread : read "\"$no é\"/($x, é/$y, $x), $0, $z" = .ok scattered := by cbv
  obtain ⟨-, hmem, hwalk, hok, herror⟩ := references_of_read hread
  have hreferences : scattered.references = [("x", 10), ("y", 17), ("x", 21), ("z", 30)] := rfl
  have hcheck : scattered.check ["x"] = .error (.undeclaredCapture "y" 17) := rfl
  obtain ⟨name, position, heq, hleftmost⟩ := (herror _ _).mp hcheck
  obtain ⟨rfl, rfl⟩ := CompileError.undeclaredCapture.inj heq
  refine ⟨hread, hreferences, hwalk, hleftmost.refers, ?_, hcheck, hleftmost⟩
  rw [hok]
  intro name position hrefers htarget
  have hlisted := (hmem name position).mpr ⟨hrefers, htarget⟩
  rw [hreferences] at hlisted
  simp only [List.mem_cons, Prod.mk.injEq, List.not_mem_nil, or_false] at hlisted
  rcases hlisted with ⟨rfl, -⟩ | ⟨rfl, -⟩ | ⟨rfl, -⟩ | ⟨rfl, -⟩ <;> simp

end Template

end TreeRules
