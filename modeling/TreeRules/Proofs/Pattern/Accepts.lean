/-
What the reader of patterns accepts.

    text  :=  pattern ['->' template]

A list of tokens is accepted exactly if it has a derivation that is admissible: its repetitions are
allowed, a reference in the pattern comes after the element of a capture of that name, and a
reference in the template names a capture of the pattern or the target.  The pattern and the
template that are answered are those that the derivation means, and no list has two derivations.
-/
import Mathlib
import TreeRules.Proofs.Pattern.Declared
import TreeRules.Proofs.Pattern.Derived
import TreeRules.Proofs.Template.Grammar

namespace TreeRules

open TreeRules.Text

namespace Grammar

/-! ### Whole derivations -/

/-- What a pattern may start with. -/
inductive Lead where
  /-- A match may start anywhere, as it does without the sign. -/
  | anywhere
  /-- A match starts where the search does. -/
  | atRoot

/-- The token of the sign. -/
def Lead.token : Lead → Token
  | anywhere => .doubleSlash
  | atRoot => .slash

theorem Lead.token_injective : Function.Injective Lead.token := by
  intro lead lead' h
  cases lead <;> cases lead' <;> first | rfl | exact absurd h (by decide)

/-- The token of the sign, if there is one. -/
def leadTokens (lead : Option (Placed Lead)) : List (Placed Token) :=
  lead.toList.map (·.map Lead.token)

/-- The pattern with what the sign adds to it.  A single slash anchors it at the place where the
search starts. -/
def leadPattern : Option (Placed Lead) → Pattern → Pattern
  | some ⟨.atRoot, _⟩, body => .sequence [(none, .anchor .root), (none, body)]
  | _, body => body

/-- An arrow and the template after it, which may be empty. -/
structure Arrow where
  position : Nat
  nodes : Option Nodes

namespace Arrow

/-- The tokens after the arrow. -/
def nodeTokens (arrow : Arrow) : List (Placed Token) := (arrow.nodes.map Nodes.tokens).getD []

/-- The template that is meant. -/
def template (arrow : Arrow) : Template := ⟨(arrow.nodes.map Nodes.template).getD []⟩

end Arrow

/-- The tokens of an arrow and the template after it, if there is an arrow. -/
def arrowTokens : Option Arrow → List (Placed Token)
  | none => []
  | some arrow => ⟨.arrow, arrow.position⟩ :: arrow.nodeTokens

/-- A derivation of a pattern and of the template after it, if there is an arrow. -/
structure Derivation where
  lead : Option (Placed Lead)
  branches : Branches
  arrow : Option Arrow

namespace Derivation

/-- The tokens that are derived. -/
def tokens (d : Derivation) : List (Placed Token) :=
  leadTokens d.lead ++ (tokensOf d.branches.pieces ++ arrowTokens d.arrow)

/-- The pattern that is meant. -/
def pattern (d : Derivation) : Pattern := leadPattern d.lead d.branches.pattern

/-- The template that is meant, if there is an arrow. -/
def template (d : Derivation) : Option Template := d.arrow.map Arrow.template

/-- What the grammar itself does not ask of a derivation. -/
structure Admissible (maxBound : Nat) (d : Derivation) : Prop where
  allowed : ∀ body min max, .repeated body min max ∈ d.branches.pieces →
    Allowed maxBound body min max
  backward : Backward [] d.branches.pieces
  /-- A reference in the template, other than to the target, names a capture of the pattern. -/
  declared : ∀ arrow name position, d.arrow = some arrow →
    ⟨.reference name, position⟩ ∈ arrow.nodeTokens → name ≠ "0" →
      name ∈ endedIn d.branches.pieces

end Derivation

/-! ### The parts of a text -/

variable {ctx : ReadContext}

theorem of_readPattern {tokens : List (Placed Token)} {pattern : Pattern} {s' : ReadState}
    (h : Pattern.readPattern ctx tokens = .ok (pattern, s')) :
    ∃ lead, ∃ branches : Branches, ∃ rest, tokens = leadTokens lead ++ rest ∧
      Reads ctx.maxBound branches.pieces { rest } s' ∧
        leadPattern lead branches.pattern = pattern := by
  unfold Pattern.readPattern at h
  split at h
  · rename_i position rest
    obtain ⟨⟨⟨body, s₁⟩, h₁⟩, hread, h⟩ := Pattern.ok_of_bind h
    obtain ⟨rfl, rfl⟩ := Prod.mk.inj (Except.ok.inj h)
    obtain ⟨branches, hreads, hpattern⟩ := of_readBranches ctx _ ⟨h₁, hread⟩
    exact ⟨some ⟨.anywhere, position⟩, branches, rest, rfl, hreads, hpattern⟩
  · rename_i position rest
    obtain ⟨⟨⟨body, s₁⟩, h₁⟩, hread, h⟩ := Pattern.ok_of_bind h
    obtain ⟨rfl, rfl⟩ := Prod.mk.inj (Except.ok.inj h)
    obtain ⟨branches, hreads, rfl⟩ := of_readBranches ctx _ ⟨h₁, hread⟩
    exact ⟨some ⟨.atRoot, position⟩, branches, rest, rfl, hreads, rfl⟩
  · obtain ⟨⟨⟨body, s₁⟩, h₁⟩, hread, h⟩ := Pattern.ok_of_bind h
    obtain ⟨rfl, rfl⟩ := Prod.mk.inj (Except.ok.inj h)
    obtain ⟨branches, hreads, hpattern⟩ := of_readBranches ctx _ ⟨h₁, hread⟩
    exact ⟨none, branches, tokens, rfl, hreads, hpattern⟩

theorem nextIs_element_branches (branches : Branches) {rest : List (Placed Token)} :
    NextIs (·.startsElement = true) (tokensOf branches.pieces ++ rest) := by
  obtain ⟨⟨first, marks, steps⟩, others⟩ := branches
  rw [Branches.pieces, Sequence.pieces]
  simp only [tokensOf_append, List.append_assoc]
  exact nextIs_element first

theorem readPattern_of_reads (lead : Option (Placed Lead)) {branches : Branches}
    {rest : List (Placed Token)} {s' : ReadState}
    (h : Reads ctx.maxBound branches.pieces { rest } s') (hnext : NextIs EndsBranches s'.rest) :
    Pattern.readPattern ctx (leadTokens lead ++ rest) =
      .ok (leadPattern lead branches.pattern, s') := by
  obtain ⟨h₁, hread⟩ := gives_readBranches branches h hnext
  unfold Pattern.readPattern
  cases lead with
  | none =>
      have hstarts : NextIs (·.startsElement = true) rest := by
        rw [show rest = _ from h.rest_eq]
        exact nextIs_element_branches branches
      split
      · rename_i position rest' heq
        obtain rfl : rest = _ := heq
        exact absurd (nextIs_cons.mp hstarts) Bool.false_ne_true
      · rename_i position rest' heq
        obtain rfl : rest = _ := heq
        exact absurd (nextIs_cons.mp hstarts) Bool.false_ne_true
      · show (Pattern.readBranches ctx { rest } >>= _) = _
        rw [hread]
        rfl
  | some lead =>
      obtain ⟨lead, position⟩ := lead
      cases lead with
      | anywhere =>
          show (Pattern.readBranches ctx { rest } >>= _) = _
          rw [hread]
          rfl
      | atRoot =>
          show (Pattern.readBranches ctx { rest } >>= _) = _
          rw [hread]
          rfl

theorem of_readArrow {s s' : ReadState} {template : Option Template}
    (h : CompiledPattern.readArrow ctx s = .ok (template, s')) (hend : s'.rest = []) :
    ∃ arrow : Option Arrow, s.rest = arrowTokens arrow ∧ arrow.map Arrow.template = template := by
  unfold CompiledPattern.readArrow at h
  split at h
  · rename_i position rest hrest
    obtain ⟨⟨template, s₁⟩, hread, h⟩ := Pattern.ok_of_bind h
    obtain ⟨rfl, rfl⟩ := Prod.mk.inj (Except.ok.inj h)
    obtain ⟨nodes, hnodes, rfl⟩ := of_readFrom hread hend
    refine ⟨some ⟨position, nodes⟩, ?_, rfl⟩
    obtain rfl : rest = _ := hnodes
    exact hrest
  · obtain ⟨rfl, rfl⟩ := Prod.mk.inj (Except.ok.inj h)
    exact ⟨none, hend, rfl⟩

theorem readArrow_of_tokens (arrow : Option Arrow) {s : ReadState}
    (h : s.rest = arrowTokens arrow) :
    CompiledPattern.readArrow ctx s =
      .ok (arrow.map Arrow.template, { s with rest := [] }) := by
  obtain ⟨rest, closed⟩ := s
  obtain rfl : rest = arrowTokens arrow := h
  cases arrow with
  | none => rfl
  | some arrow =>
      have hfrom : Template.readFrom ctx ⟨arrow.nodeTokens, closed⟩ =
          .ok (arrow.template, ⟨[], closed⟩) := readFrom_of_tokens arrow.nodes
      show (Template.readFrom ctx ⟨arrow.nodeTokens, closed⟩ >>= _) = _
      rw [hfrom]
      rfl

theorem check_eq_ok {template : Template} {names : List String} :
    template.check names = .ok () ↔
      ∀ name position, (name, position) ∈ template.references → name ∈ names := by
  unfold Template.check
  cases h : template.undeclared? names with
  | none =>
      simp only [true_iff]
      intro name position hmem
      have hfound := List.find?_eq_none.mp h (name, position) hmem
      simpa using hfound
  | some found =>
      obtain ⟨name, position⟩ := found
      have hmem := List.mem_of_find?_eq_some h
      have hname : name ∉ names := by simpa using List.find?_some h
      constructor
      · exact fun hok => absurd hok (by simp)
      · exact fun hall => absurd (hall name position hmem) hname

theorem references_template (arrow : Arrow) :
    arrow.template.references = arrow.nodeTokens.filterMap captureReference? := by
  obtain ⟨position, nodes⟩ := arrow
  cases nodes with
  | none => rfl
  | some nodes => exact nodes.references

theorem captureNames_leadPattern (lead : Option (Placed Lead)) (body : Pattern) :
    (leadPattern lead body).captureNames = body.captureNames := by
  unfold leadPattern
  split
  · simp only [Pattern.captureNames, Pattern.captureNamesAfter, Pattern.captureNamesOfSteps]
  · rfl

/-- A template is accepted if its references are declared. -/
theorem check_arrow {arrow : Arrow} {lead : Option (Placed Lead)} {branches : Branches} :
    arrow.template.check (leadPattern lead branches.pattern).captureNames = .ok () ↔
      ∀ name position, ⟨.reference name, position⟩ ∈ arrow.nodeTokens → name ≠ "0" →
        name ∈ endedIn branches.pieces := by
  rw [check_eq_ok, references_template, captureNames_leadPattern]
  simp only [mem_captureNames]
  constructor
  · intro h name position hmem hname
    exact h name position
      (List.mem_filterMap.mpr ⟨_, hmem, captureReference?_reference hname position⟩)
  · intro h name position hmem
    obtain ⟨token, htoken, hreference⟩ := List.mem_filterMap.mp hmem
    obtain ⟨rfl, hname⟩ := eq_of_captureReference? hreference
    exact h name position htoken hname

end Grammar

namespace CompiledPattern

open Grammar

/-- What is read from the tokens of a text: the pattern, and the template if there is an arrow. -/
def readTokens (ctx : ReadContext) (tokens : List (Placed Token)) :
    Except CompileError (Pattern × Option Template) := do
  let (pattern, s) ← Pattern.readPattern ctx tokens
  let (template, s) ← readArrow ctx s
  s.finish ctx
  match template with
  | some template => template.check pattern.captureNames
  | none => pure ()
  return (pattern, template)

/-- The pattern that is compiled from what is read. -/
def ofTokens (text : String) (tokens : List (Placed Token)) (answer : Pattern × Option Template) :
    CompiledPattern where
  source := text
  pattern := answer.1
  program := answer.1.compile
  template := answer.2
  predicates := Token.predicateReferences tokens

theorem read_eq (text : String) (settings : Settings) :
    read text settings = Token.readAll text >>= fun tokens =>
      (readTokens ⟨byteWidth text.toList, settings.maxBound⟩ tokens).map
        (ofTokens text tokens) := by
  unfold read readTokens
  cases Token.readAll text with
  | error e => rfl
  | ok tokens =>
      simp only [bind, Except.bind]
      cases Pattern.readPattern _ tokens with
      | error e => rfl
      | ok read =>
          obtain ⟨pattern, s⟩ := read
          dsimp only
          cases readArrow _ s with
          | error e => rfl
          | ok read =>
              obtain ⟨template, s'⟩ := read
              dsimp only
              cases s'.finish _ with
              | error e => rfl
              | ok _ =>
                  cases template with
                  | none => rfl
                  | some template =>
                      dsimp only
                      cases template.check pattern.captureNames <;> rfl

theorem readTokens_eq_ok {ctx : ReadContext} {tokens : List (Placed Token)} {pattern : Pattern}
    {template : Option Template} :
    readTokens ctx tokens = .ok (pattern, template) ↔
      ∃ s s', Pattern.readPattern ctx tokens = .ok (pattern, s) ∧
        readArrow ctx s = .ok (template, s') ∧ s'.rest = [] ∧
          ∀ t, template = some t → t.check pattern.captureNames = .ok () := by
  constructor
  · intro h
    unfold readTokens at h
    obtain ⟨⟨pattern, s⟩, hpattern, h⟩ := Pattern.ok_of_bind h
    obtain ⟨⟨template, s'⟩, harrow, h⟩ := Pattern.ok_of_bind h
    obtain ⟨_, hfinish, h⟩ := Pattern.ok_of_bind h
    have hend := finish_eq_ok.mp hfinish
    dsimp only at h
    split at h
    · rename_i template
      obtain ⟨_, hcheck, h⟩ := Pattern.ok_of_bind h
      obtain ⟨rfl, rfl⟩ := Prod.mk.inj (Except.ok.inj h)
      exact ⟨s, s', hpattern, harrow, hend, fun t ht => Option.some.inj ht ▸ hcheck⟩
    · obtain ⟨rfl, rfl⟩ := Prod.mk.inj (Except.ok.inj h)
      exact ⟨s, s', hpattern, harrow, hend, fun t ht => absurd ht (by simp)⟩
  · rintro ⟨s, s', hpattern, harrow, hend, hcheck⟩
    have hfinish : s'.finish ctx = .ok () := finish_eq_ok.mpr hend
    cases template with
    | none =>
        simp only [readTokens, bind, Except.bind, hpattern, harrow, hfinish]
        rfl
    | some template =>
        simp only [readTokens, bind, Except.bind, hpattern, harrow, hfinish, hcheck template rfl]
        rfl

end CompiledPattern

namespace Grammar

open CompiledPattern

variable {ctx : ReadContext} {tokens : List (Placed Token)}

theorem exists_derivation {pattern : Pattern} {template : Option Template}
    (h : readTokens ctx tokens = .ok (pattern, template)) :
    ∃ d : Derivation, d.tokens = tokens ∧ d.Admissible ctx.maxBound ∧ d.pattern = pattern ∧
      d.template = template := by
  obtain ⟨s, s', hpattern, harrow, hend, hcheck⟩ := readTokens_eq_ok.mp h
  obtain ⟨lead, branches, rest, rfl, hreads, rfl⟩ := of_readPattern hpattern
  obtain ⟨arrow, htokens, rfl⟩ := of_readArrow harrow hend
  obtain ⟨hrest, -, hbackward, hallowed⟩ := reads_iff.mp hreads
  refine ⟨⟨lead, branches, arrow⟩, ?_, ⟨hallowed, hbackward, ?_⟩, rfl, rfl⟩
  · show leadTokens lead ++ (tokensOf branches.pieces ++ arrowTokens arrow) = _
    rw [← htokens, ← hrest]
  · rintro arrow' name position (rfl : arrow = some arrow')
    exact check_arrow.mp (hcheck _ rfl) name position

theorem nextIs_arrow (arrow : Option Arrow) : NextIs EndsBranches (arrowTokens arrow) := by
  cases arrow with
  | none => exact nextIs_nil _
  | some arrow => exact nextIs_cons.mpr (.inr rfl)

theorem readTokens_of_admissible {d : Derivation} (h : d.Admissible ctx.maxBound) :
    readTokens ctx d.tokens = .ok (d.pattern, d.template) := by
  obtain ⟨lead, branches, arrow⟩ := d
  have hreads : Reads ctx.maxBound branches.pieces
      { rest := tokensOf branches.pieces ++ arrowTokens arrow }
      ⟨arrowTokens arrow, endedIn branches.pieces⟩ :=
    reads_iff.mpr ⟨rfl, rfl, h.backward, h.allowed⟩
  refine readTokens_eq_ok.mpr ⟨_, _, readPattern_of_reads lead hreads (nextIs_arrow arrow),
    readArrow_of_tokens arrow rfl, rfl, ?_⟩
  intro template htemplate
  obtain ⟨arrow', rfl, rfl⟩ := Option.map_eq_some_iff.mp htemplate
  exact check_arrow.mpr fun name position => h.declared arrow' name position rfl

theorem leads_unique {lead lead' : Option (Placed Lead)} {branches branches' : Branches}
    {rest rest' : List (Placed Token)}
    (h : leadTokens lead ++ (tokensOf branches.pieces ++ rest) =
      leadTokens lead' ++ (tokensOf branches'.pieces ++ rest')) :
    lead = lead' ∧ tokensOf branches.pieces ++ rest = tokensOf branches'.pieces ++ rest' := by
  have hlead : ∀ lead : Placed Lead, ¬ (lead.map Lead.token).value.startsElement = true := by
    rintro ⟨lead, position⟩
    cases lead <;> exact Bool.false_ne_true
  exact option_unique (Placed.map_injective Lead.token_injective) hlead
    (nextIs_element_branches branches) (nextIs_element_branches branches') h

theorem arrowTokens_injective : Function.Injective arrowTokens := by
  intro arrow arrow' h
  cases arrow with
  | none =>
      cases arrow' with
      | none => rfl
      | some arrow' => exact absurd h (List.cons_ne_nil _ _).symm
  | some arrow =>
      cases arrow' with
      | none => exact absurd h (List.cons_ne_nil _ _)
      | some arrow' =>
          obtain ⟨position, nodes⟩ := arrow
          obtain ⟨position', nodes'⟩ := arrow'
          obtain ⟨hposition, hnodes⟩ := List.cons.inj h
          obtain rfl : position = position' := (Placed.mk.inj hposition).2
          cases nodes with
          | none =>
              cases nodes' with
              | none => rfl
              | some nodes' => exact absurd hnodes.symm (nodes_ne_nil nodes')
          | some nodes =>
              cases nodes' with
              | none => exact absurd hnodes (nodes_ne_nil nodes)
              | some nodes' =>
                  have heq : nodes.tokens ++ [] = nodes'.tokens ++ [] := by
                    rw [List.append_nil, List.append_nil]
                    exact hnodes
                  obtain ⟨rfl, -⟩ := Nodes.unique nodes nodes' (nextIs_nil _) (nextIs_nil _) heq
                  rfl

theorem tokens_injective : Function.Injective Derivation.tokens := by
  rintro ⟨lead, branches, arrow⟩ ⟨lead', branches', arrow'⟩ h
  obtain ⟨rfl, hbranches⟩ := leads_unique h
  obtain ⟨rfl, harrow⟩ := Branches.unique branches branches' (nextIs_arrow arrow)
    (nextIs_arrow arrow') hbranches
  obtain rfl := arrowTokens_injective harrow
  rfl

end Grammar

namespace CompiledPattern

open Grammar

/-- A pattern that has been read has an admissible derivation, and is what that means. -/
theorem exists_derivation_of_read {text : String} {settings : Settings} {p : CompiledPattern}
    (h : read text settings = .ok p) :
    ∃ d : Derivation, Token.readAll text = .ok d.tokens ∧ d.Admissible settings.maxBound ∧
      p = ofTokens text d.tokens (d.pattern, d.template) := by
  rw [read_eq] at h
  obtain ⟨tokens, htokens, h⟩ := Pattern.ok_of_bind h
  cases hread : readTokens ⟨byteWidth text.toList, settings.maxBound⟩ tokens with
  | error e =>
      rw [hread] at h
      cases h
  | ok answer =>
      rw [hread] at h
      obtain ⟨d, rfl, hadmissible, hpattern, htemplate⟩ := exists_derivation hread
      refine ⟨d, htokens, hadmissible, ?_⟩
      rw [hpattern, htemplate]
      exact (Except.ok.inj h).symm

/-- What has an admissible derivation is read. -/
theorem read_of_derivation {text : String} {settings : Settings} {d : Derivation}
    (htokens : Token.readAll text = .ok d.tokens) (h : d.Admissible settings.maxBound) :
    read text settings = .ok (ofTokens text d.tokens (d.pattern, d.template)) := by
  rw [read_eq, htokens]
  have hread : readTokens ⟨byteWidth text.toList, settings.maxBound⟩ d.tokens =
      .ok (d.pattern, d.template) := readTokens_of_admissible h
  show (readTokens _ d.tokens).map _ = _
  rw [hread]
  rfl

/-- **The reader of patterns accepts exactly its grammar.**  A text is read through its tokens.
Tokens are accepted if and only if they have an admissible derivation, the pattern and the template
that are answered are those that the derivation means, and no tokens have two derivations. -/
theorem readTokens_iff_derivation :
    (∀ text settings, read text settings = Token.readAll text >>= fun tokens =>
      (readTokens ⟨byteWidth text.toList, settings.maxBound⟩ tokens).map (ofTokens text tokens)) ∧
    (∀ ctx tokens pattern template, readTokens ctx tokens = .ok (pattern, template) ↔
      ∃ d : Derivation, d.tokens = tokens ∧ d.Admissible ctx.maxBound ∧ d.pattern = pattern ∧
        d.template = template) ∧
    Function.Injective Derivation.tokens := by
  refine ⟨read_eq, fun ctx tokens pattern template => ⟨exists_derivation, ?_⟩, tokens_injective⟩
  rintro ⟨d, rfl, hadmissible, rfl, rfl⟩
  exact readTokens_of_admissible hadmissible

-- In `n:a?? $n -> x/$n` the second question mark makes the repetition lazy, the child axis joins
-- what stands side by side, and both references come after the element that they name.
example :
    readTokens ⟨16, 1⟩ [⟨.word "n", 0⟩, ⟨.colon, 1⟩, ⟨.word "a", 2⟩, ⟨.question, 3⟩,
        ⟨.question, 4⟩, ⟨.reference "n", 6⟩, ⟨.arrow, 9⟩, ⟨.word "x", 12⟩, ⟨.slash, 13⟩,
        ⟨.reference "n", 14⟩] =
      .ok (.sequence
          [(none, .capture "n" (.repetition (.test (.literal "a")) 0 (some 1) false)),
            (some .child, .test (.reference "n"))],
        some ⟨[.node (.literal "x") [.node (.capture "n" 14) []]]⟩) := by cbv

end CompiledPattern

end TreeRules
