/-
The grammar of templates.

    template  := nothing | node (',' node)*
    node      := (word | quoted) ['/' (node | '(' node (',' node)* ')')] | reference

A derivation is a tree that holds its tokens with the positions where they stand.  What is read is
derived, what is derived is read as the nodes that it means, and no tokens have two derivations.
Reading a template closes no capture and checks no reference, so all that changes is the tokens that
are left.
-/
import TreeRules.Proofs.Pattern.Derivable
import TreeRules.Proofs.Pattern.Unambiguous

namespace TreeRules

open TreeRules.Text

namespace Grammar

/-! ### Derivations -/

/-- The text of a new node. -/
inductive Literal where
  | word (text : String)
  | quoted (text : String)

namespace Literal

/-- The token of the text. -/
def token : Literal → Token
  | word text => .word text
  | quoted text => .quoted text

/-- The text. -/
def text : Literal → String
  | word text | quoted text => text

theorem token_injective : Function.Injective token := by
  intro text text' h
  cases text <;> cases text' <;> simp_all [token]

end Literal

mutual

/-- A new node with what lies beneath it, or a reference. -/
inductive Node where
  | literal (text : Placed Literal) (beneath : Beneath)
  | reference (name : Placed String)

/-- What lies beneath a new node. -/
inductive Beneath where
  | nothing
  | one (slash : Nat) (only : Node)
  | several (slash : Nat) (opening : Nat) (nodes : Nodes) (closing : Nat)

/-- Nodes with commas between them. -/
inductive Nodes where
  | mk (first : Node) (others : MoreNodes)

/-- The nodes after the first, each after a comma. -/
inductive MoreNodes where
  | nil
  | cons (comma : Nat) (node : Node) (others : MoreNodes)

end

/-- What a reference in a template stands for: `$0` is the target of the match. -/
def referenceHead (name : Placed String) : TemplateHead :=
  if name.value = "0" then .target else .capture name.value name.position

mutual

def Node.template : Node → TemplateNode
  | .literal text beneath => .node (.literal text.value.text) beneath.template
  | .reference name => .node (referenceHead name) []

def Beneath.template : Beneath → List TemplateNode
  | .nothing => []
  | .one _ only => [only.template]
  | .several _ _ nodes _ => nodes.template

def Nodes.template : Nodes → List TemplateNode
  | .mk first others => first.template :: others.template

def MoreNodes.template : MoreNodes → List TemplateNode
  | .nil => []
  | .cons _ node others => node.template :: others.template

end

mutual

def Node.tokens : Node → List (Placed Token)
  | .literal text beneath => text.map Literal.token :: beneath.tokens
  | .reference name => [name.map .reference]

def Beneath.tokens : Beneath → List (Placed Token)
  | .nothing => []
  | .one slash only => ⟨.slash, slash⟩ :: only.tokens
  | .several slash opening nodes closing =>
    ⟨.slash, slash⟩ :: ⟨.openParen, opening⟩ :: nodes.tokens ++ [⟨.closeParen, closing⟩]

def Nodes.tokens : Nodes → List (Placed Token)
  | .mk first others => first.tokens ++ others.tokens

def MoreNodes.tokens : MoreNodes → List (Placed Token)
  | .nil => []
  | .cons comma node others => ⟨.comma, comma⟩ :: node.tokens ++ others.tokens

end

/-! ### What is read is derived -/

mutual

theorem of_readList (ctx : ReadContext) (s : ReadState) {list : List TemplateNode}
    {s' : ReadState} (h : Gives (TemplateNode.readList ctx s) list s') :
    ∃ nodes : Nodes, Takes nodes.tokens s s' ∧ nodes.template = list := by
  rw [TemplateNode.readList] at h
  obtain ⟨first, s₁, h₁, hfirst, h⟩ := gives_bind.mp h
  obtain ⟨others, s₂, h₂, hothers, h⟩ := gives_bind.mp h
  obtain ⟨first', hs, rfl⟩ := of_readNode ctx s ⟨h₁, hfirst⟩
  obtain ⟨others', hs₁, rfl⟩ := of_readMore ctx s₁ ⟨h₂, hothers⟩
  obtain ⟨rfl, rfl⟩ := Prod.mk.inj (gives_ok.mp h)
  refine ⟨.mk first' others', ?_, by rw [Nodes.template]⟩
  rw [Nodes.tokens]
  exact hs.append hs₁
  termination_by (s.rest.length, 1)

theorem of_readMore (ctx : ReadContext) (s : ReadState) {list : List TemplateNode}
    {s' : ReadState} (h : Gives (TemplateNode.readMore ctx s) list s') :
    ∃ others : MoreNodes, Takes others.tokens s s' ∧
      others.template = list := by
  rw [TemplateNode.readMore] at h
  split at h
  · rename_i comma rest hrest
    have hlt := length_lt_of_eq_cons hrest
    obtain ⟨node, s₁, h₁, hnode, h⟩ := gives_bind.mp h
    have hlt₁ : s₁.rest.length < s.rest.length := Nat.lt_trans h₁ hlt
    obtain ⟨others, s₂, h₂, hothers, h⟩ := gives_bind.mp h
    obtain ⟨node', hs, rfl⟩ := of_readNode ctx _ ⟨h₁, hnode⟩
    obtain ⟨others', hs₁, rfl⟩ := of_readMore ctx s₁ ⟨h₂, hothers⟩
    obtain ⟨rfl, rfl⟩ := Prod.mk.inj (gives_ok.mp h)
    refine ⟨.cons comma node' others', ?_, by rw [MoreNodes.template]⟩
    rw [MoreNodes.tokens]
    exact .cons hrest (hs.append hs₁)
  · obtain ⟨rfl, rfl⟩ := Prod.mk.inj (gives_ok.mp h)
    exact ⟨.nil, .nil s, rfl⟩
  termination_by (s.rest.length, 2)
  decreasing_by all_goals exact Prod.Lex.left _ _ (by assumption)

theorem of_readNode (ctx : ReadContext) (s : ReadState) {result : TemplateNode}
    {s' : ReadState} (h : Gives (TemplateNode.readNode ctx s) result s') :
    ∃ node : Node, Takes node.tokens s s' ∧ node.template = result := by
  rw [TemplateNode.readNode] at h
  split at h
  · rename_i text position rest hrest
    have hlt := length_lt_of_eq_cons hrest
    obtain ⟨beneath, s₁, h₁, hbeneath, h⟩ := gives_bind.mp h
    obtain ⟨beneath', hs, rfl⟩ := of_readChildren ctx _ ⟨h₁, hbeneath⟩
    obtain ⟨rfl, rfl⟩ := Prod.mk.inj (gives_ok.mp h)
    refine ⟨.literal ⟨.word text, position⟩ beneath', ?_, by rw [Node.template]; rfl⟩
    rw [Node.tokens]
    exact .cons hrest hs
  · rename_i text position rest hrest
    have hlt := length_lt_of_eq_cons hrest
    obtain ⟨beneath, s₁, h₁, hbeneath, h⟩ := gives_bind.mp h
    obtain ⟨beneath', hs, rfl⟩ := of_readChildren ctx _ ⟨h₁, hbeneath⟩
    obtain ⟨rfl, rfl⟩ := Prod.mk.inj (gives_ok.mp h)
    refine ⟨.literal ⟨.quoted text, position⟩ beneath', ?_, by rw [Node.template]; rfl⟩
    rw [Node.tokens]
    exact .cons hrest hs
  · rename_i name position rest hrest
    split at h
    · exact absurd h not_gives_error
    · obtain ⟨rfl, rfl⟩ := Prod.mk.inj (gives_ok.mp h)
      refine ⟨.reference ⟨name, position⟩, ?_, rfl⟩
      rw [Node.tokens]
      exact .cons hrest (.nil _)
  · exact absurd h not_gives_error
  termination_by (s.rest.length, 0)
  decreasing_by all_goals exact Prod.Lex.left _ _ hlt

theorem of_readChildren (ctx : ReadContext) (s : ReadState) {list : List TemplateNode}
    {s' : ReadState} (h : Gives (TemplateNode.readChildren ctx s) list s') :
    ∃ beneath : Beneath, Takes beneath.tokens s s' ∧
      beneath.template = list := by
  rw [TemplateNode.readChildren] at h
  split at h
  · rename_i slash opening rest hrest
    have hlt := Nat.lt_of_succ_lt (length_lt_of_eq_cons hrest)
    obtain ⟨nodes, s₁, h₁, hnodes, h⟩ := gives_bind.mp h
    obtain ⟨nodes', hs, rfl⟩ := of_readList ctx _ ⟨h₁, hnodes⟩
    dsimp only at h
    split at h
    · rename_i closing rest₂ hrest₂
      obtain ⟨rfl, rfl⟩ := Prod.mk.inj (gives_ok.mp h)
      refine ⟨.several slash opening nodes' closing, ?_, by rw [Beneath.template]⟩
      rw [Beneath.tokens]
      exact .cons hrest (.cons rfl (hs.append (.cons hrest₂ (.nil _))))
    · exact absurd h not_gives_error
  · rename_i slash rest _ hrest
    have hlt := length_lt_of_eq_cons hrest
    obtain ⟨only, s₁, h₁, honly, h⟩ := gives_bind.mp h
    obtain ⟨only', hs, rfl⟩ := of_readNode ctx _ ⟨h₁, honly⟩
    obtain ⟨rfl, rfl⟩ := Prod.mk.inj (gives_ok.mp h)
    refine ⟨.one slash only', ?_, by rw [Beneath.template]⟩
    rw [Beneath.tokens]
    exact .cons hrest hs
  · obtain ⟨rfl, rfl⟩ := Prod.mk.inj (gives_ok.mp h)
    exact ⟨.nothing, .nil s, rfl⟩
  termination_by (s.rest.length, 3)
  decreasing_by all_goals exact Prod.Lex.left _ _ hlt

end

/-! ### What comes after a part that ends -/

/-- What may come after a node. -/
def EndsNode (token : Token) : Prop := token ≠ .slash

/-- What may come after a list of nodes. -/
def EndsNodes (token : Token) : Prop := token ≠ .slash ∧ token ≠ .comma

variable {rest rest' : List (Placed Token)}

theorem nextIs_more (others : MoreNodes) (h : NextIs EndsNodes rest) :
    NextIs EndsNode (others.tokens ++ rest) := by
  cases others with
  | nil => exact h.mono fun _ h => h.1
  | cons comma node others =>
      rw [MoreNodes.tokens]
      exact nextIs_cons.mpr Token.noConfusion

theorem nextIs_closeParen {position : Nat} : NextIs EndsNodes (⟨.closeParen, position⟩ :: rest) :=
  nextIs_cons.mpr ⟨Token.noConfusion, Token.noConfusion⟩

theorem several_tokens_eq (slash opening closing : Nat) (nodes : Nodes) :
    (Beneath.several slash opening nodes closing).tokens =
      ⟨.slash, slash⟩ :: ⟨.openParen, opening⟩ ::
        (nodes.tokens ++ [⟨.closeParen, closing⟩]) := by
  rw [Beneath.tokens]
  rfl

theorem several_tokens (slash opening closing : Nat) (nodes : Nodes) :
    (Beneath.several slash opening nodes closing).tokens ++ rest =
      ⟨.slash, slash⟩ :: ⟨.openParen, opening⟩ ::
        (nodes.tokens ++ ⟨.closeParen, closing⟩ :: rest) := by
  rw [several_tokens_eq]
  simp

theorem literal_ne_reference (text : Placed Literal) (name : Placed String) :
    text.map Literal.token ≠ name.map .reference := by
  intro h
  have htext : text.value.token = .reference name.value := (Placed.mk.inj h).1
  cases hvalue : text.value <;> exact Token.noConfusion (hvalue ▸ htext)

theorem node_ne_openParen (node : Node) {position : Nat} :
    node.tokens ++ rest ≠ ⟨.openParen, position⟩ :: rest' := by
  intro heq
  cases node with
  | literal text beneath =>
      rw [Node.tokens] at heq
      have htext : text.value.token = .openParen := (Placed.mk.inj (List.cons.inj heq).1).1
      cases hvalue : text.value <;> exact Token.noConfusion (hvalue ▸ htext)
  | reference name => exact Token.noConfusion (Placed.mk.inj (List.cons.inj heq).1).1

/-! ### What is derived is read -/

variable {ctx : ReadContext} {closed : List String}

mutual

theorem gives_readList : ∀ (nodes : Nodes) {rest : List (Placed Token)}, NextIs EndsNodes rest →
    Gives (TemplateNode.readList ctx ⟨nodes.tokens ++ rest, closed⟩) nodes.template ⟨rest, closed⟩
  | .mk first others, rest, hnext => by
      have hread := gives_readNode first (nextIs_more others hnext)
      have hread' := gives_readMore others hnext
      rw [TemplateNode.readList, Nodes.tokens, List.append_assoc, Nodes.template]
      exact hread.bind fun _ => hread'.bind fun _ => gives_ok.mpr rfl

theorem gives_readMore : ∀ (others : MoreNodes) {rest : List (Placed Token)},
    NextIs EndsNodes rest →
      Gives (TemplateNode.readMore ctx ⟨others.tokens ++ rest, closed⟩) others.template
        ⟨rest, closed⟩
  | .nil, rest, hnext => by
      rw [TemplateNode.readMore, MoreNodes.tokens, MoreNodes.template]
      split
      · rename_i comma rest' hrest
        obtain rfl : rest = _ := hrest
        exact absurd rfl (nextIs_cons.mp hnext).2
      · exact gives_ok.mpr rfl
  | .cons comma node others, rest, hnext => by
      have hread := gives_readNode node (nextIs_more others hnext)
      have hread' := gives_readMore others hnext
      rw [MoreNodes.tokens, List.append_assoc, List.cons_append, TemplateNode.readMore,
        MoreNodes.template]
      exact hread.bind fun _ => hread'.bind fun _ => gives_ok.mpr rfl

theorem gives_readNode : ∀ (node : Node) {rest : List (Placed Token)}, NextIs EndsNode rest →
    Gives (TemplateNode.readNode ctx ⟨node.tokens ++ rest, closed⟩) node.template ⟨rest, closed⟩
  | .literal ⟨.word text, position⟩ beneath, rest, hnext => by
      have hread := gives_readChildren beneath hnext
      rw [Node.tokens, List.cons_append, TemplateNode.readNode, Node.template]
      exact hread.bind fun _ => gives_ok.mpr rfl
  | .literal ⟨.quoted text, position⟩ beneath, rest, hnext => by
      have hread := gives_readChildren beneath hnext
      rw [Node.tokens, List.cons_append, TemplateNode.readNode, Node.template]
      exact hread.bind fun _ => gives_ok.mpr rfl
  | .reference name, rest, hnext => by
      have hslash : ¬ ((rest.head?.map (·.value)) == some Token.slash) = true := by
        intro heq
        obtain ⟨token, htoken, hvalue⟩ := Option.map_eq_some_iff.mp (beq_iff_eq.mp heq)
        exact hnext token htoken hvalue
      rw [Node.tokens, TemplateNode.readNode, Node.template]
      refine (congrArg (Gives · _ _) (if_neg hslash)).mpr ?_
      exact gives_ok.mpr rfl

theorem gives_readChildren : ∀ (beneath : Beneath) {rest : List (Placed Token)},
    NextIs EndsNode rest →
      Gives (TemplateNode.readChildren ctx ⟨beneath.tokens ++ rest, closed⟩) beneath.template
        ⟨rest, closed⟩
  | .nothing, rest, hnext => by
      rw [TemplateNode.readChildren, Beneath.tokens, Beneath.template]
      split
      · rename_i slash opening rest' hrest
        obtain rfl : rest = _ := hrest
        exact absurd rfl (nextIs_cons.mp hnext)
      · rename_i slash rest' _ hrest
        obtain rfl : rest = _ := hrest
        exact absurd rfl (nextIs_cons.mp hnext)
      · exact gives_ok.mpr rfl
  | .one slash only, rest, hnext => by
      have hread := gives_readNode only hnext
      rw [Beneath.tokens, List.cons_append, TemplateNode.readChildren, Beneath.template]
      split
      · rename_i slash' opening rest' hrest
        exact absurd (List.cons.inj hrest).2 (node_ne_openParen only)
      · rename_i slash' rest' _ hrest
        obtain ⟨-, rfl⟩ := List.cons.inj hrest
        exact hread.bind fun _ => gives_ok.mpr rfl
      · rename_i hslash
        exact absurd rfl (hslash slash _)
  | .several slash opening nodes closing, rest, _ => by
      have hnext : NextIs EndsNodes (⟨.closeParen, closing⟩ :: rest) := nextIs_closeParen
      have hread := gives_readList nodes hnext
      rw [several_tokens, TemplateNode.readChildren, Beneath.template]
      exact hread.bind fun _ => gives_ok.mpr rfl

end

theorem nodes_ne_nil (nodes : Nodes) : nodes.tokens ≠ [] := by
  obtain ⟨first, others⟩ := nodes
  cases first <;> simp [Nodes.tokens, Node.tokens]

/-! ### Whole templates -/

theorem of_readFrom {s s' : ReadState} {template : Template}
    (h : Template.readFrom ctx s = .ok (template, s')) (hend : s'.rest = []) :
    ∃ roots : Option Nodes, s.rest = (roots.map Nodes.tokens).getD [] ∧
      ⟨(roots.map Nodes.template).getD []⟩ = template := by
  unfold Template.readFrom at h
  split at h
  · rename_i hnil
    obtain ⟨rfl, -⟩ := Prod.mk.inj (Except.ok.inj h)
    exact ⟨none, List.isEmpty_iff.mp hnil, rfl⟩
  · obtain ⟨⟨⟨list, s₂⟩, h₂⟩, hlist, h⟩ := Pattern.ok_of_bind h
    obtain ⟨rfl, rfl⟩ := Prod.mk.inj (Except.ok.inj h)
    obtain ⟨nodes, htakes, rfl⟩ := of_readList ctx _ ⟨h₂, hlist⟩
    refine ⟨some nodes, ?_, rfl⟩
    have hnodes : s.rest = nodes.tokens ++ s₂.rest := htakes.1
    rw [hnodes, show s₂.rest = [] from hend, List.append_nil]
    rfl

theorem readFrom_of_tokens (roots : Option Nodes) :
    Template.readFrom ctx ⟨(roots.map Nodes.tokens).getD [], closed⟩ =
      .ok (⟨(roots.map Nodes.template).getD []⟩, ⟨[], closed⟩) := by
  cases roots with
  | none => rfl
  | some nodes =>
      have hlist : Gives (TemplateNode.readList ctx ⟨nodes.tokens ++ [], closed⟩)
          nodes.template ⟨[], closed⟩ := gives_readList nodes (nextIs_nil EndsNodes)
      rw [List.append_nil] at hlist
      obtain ⟨h₁, hread⟩ := hlist
      show Template.readFrom ctx ⟨nodes.tokens, closed⟩ = .ok (⟨nodes.template⟩, ⟨[], closed⟩)
      unfold Template.readFrom
      rw [if_neg (by simpa using nodes_ne_nil nodes), hread]
      rfl

theorem finish_eq_ok {s : ReadState} : s.finish ctx = .ok () ↔ s.rest = [] := by
  unfold ReadState.finish
  cases s.rest <;> simp

/-! ### No tokens have two derivations -/

mutual

theorem Nodes.unique : ∀ (nodes nodes' : Nodes) {rest rest' : List (Placed Token)},
    NextIs EndsNodes rest → NextIs EndsNodes rest' →
    nodes.tokens ++ rest = nodes'.tokens ++ rest' → nodes = nodes' ∧ rest = rest'
  | .mk first others, .mk first' others', _, _, h, h', heq => by
      rw [Nodes.tokens, Nodes.tokens, List.append_assoc, List.append_assoc] at heq
      obtain ⟨rfl, hothers⟩ := Node.unique first first' (nextIs_more others h)
        (nextIs_more others' h') heq
      obtain ⟨rfl, rfl⟩ := MoreNodes.unique others others' h h' hothers
      exact ⟨rfl, rfl⟩

theorem MoreNodes.unique : ∀ (others others' : MoreNodes) {rest rest' : List (Placed Token)},
    NextIs EndsNodes rest → NextIs EndsNodes rest' →
    others.tokens ++ rest = others'.tokens ++ rest' → others = others' ∧ rest = rest'
  | .nil, .nil, _, _, _, _, heq => ⟨rfl, heq⟩
  | .nil, .cons comma node others, _, _, h, _, heq => by
      rw [MoreNodes.tokens, MoreNodes.tokens] at heq
      obtain rfl : _ = _ :: _ := heq
      exact absurd rfl (nextIs_cons.mp h).2
  | .cons comma node others, .nil, _, _, _, h', heq => by
      rw [MoreNodes.tokens, MoreNodes.tokens] at heq
      obtain rfl : _ :: _ = _ := heq
      exact absurd rfl (nextIs_cons.mp h').2
  | .cons comma node others, .cons comma' node' others', _, _, h, h', heq => by
      rw [MoreNodes.tokens, MoreNodes.tokens, List.append_assoc, List.append_assoc] at heq
      obtain ⟨hcomma, hnode⟩ := List.cons.inj heq
      obtain ⟨-, rfl⟩ := Placed.mk.inj hcomma
      obtain ⟨rfl, hothers⟩ := Node.unique node node' (nextIs_more others h)
        (nextIs_more others' h') hnode
      obtain ⟨rfl, rfl⟩ := MoreNodes.unique others others' h h' hothers
      exact ⟨rfl, rfl⟩

theorem Node.unique : ∀ (node node' : Node) {rest rest' : List (Placed Token)},
    NextIs EndsNode rest → NextIs EndsNode rest' →
    node.tokens ++ rest = node'.tokens ++ rest' → node = node' ∧ rest = rest'
  | .literal text beneath, .literal text' beneath', _, _, h, h', heq => by
      rw [Node.tokens, Node.tokens] at heq
      obtain ⟨htext, hbeneath⟩ := List.cons.inj heq
      obtain rfl := Placed.map_injective Literal.token_injective htext
      obtain ⟨rfl, rfl⟩ := Beneath.unique beneath beneath' h h' hbeneath
      exact ⟨rfl, rfl⟩
  | .literal text beneath, .reference name', _, _, _, _, heq => by
      rw [Node.tokens, Node.tokens] at heq
      exact absurd (List.cons.inj heq).1 (literal_ne_reference text name')
  | .reference name, .literal text' beneath', _, _, _, _, heq => by
      rw [Node.tokens, Node.tokens] at heq
      exact absurd (List.cons.inj heq).1.symm (literal_ne_reference text' name)
  | .reference name, .reference name', _, _, _, _, heq => by
      obtain ⟨hname, hrest⟩ := List.cons.inj heq
      obtain rfl := Placed.map_injective (fun _ _ => Token.reference.inj) hname
      exact ⟨rfl, hrest⟩

theorem Beneath.unique : ∀ (beneath beneath' : Beneath) {rest rest' : List (Placed Token)},
    NextIs EndsNode rest → NextIs EndsNode rest' →
    beneath.tokens ++ rest = beneath'.tokens ++ rest' → beneath = beneath' ∧ rest = rest'
  | .nothing, .nothing, _, _, _, _, heq => ⟨rfl, heq⟩
  | .nothing, .one .., _, _, h, _, heq => by
      rw [Beneath.tokens, Beneath.tokens] at heq
      obtain rfl : _ = _ :: _ := heq
      exact absurd rfl (nextIs_cons.mp h)
  | .nothing, .several .., _, _, h, _, heq => by
      rw [Beneath.tokens, Beneath.tokens] at heq
      obtain rfl : _ = _ :: _ := heq
      exact absurd rfl (nextIs_cons.mp h)
  | .one .., .nothing, _, _, _, h', heq => by
      rw [Beneath.tokens, Beneath.tokens] at heq
      obtain rfl : _ :: _ = _ := heq
      exact absurd rfl (nextIs_cons.mp h')
  | .several .., .nothing, _, _, _, h', heq => by
      rw [Beneath.tokens, Beneath.tokens] at heq
      obtain rfl : _ :: _ = _ := heq
      exact absurd rfl (nextIs_cons.mp h')
  | .one slash only, .one slash' only', _, _, h, h', heq => by
      rw [Beneath.tokens, Beneath.tokens] at heq
      obtain ⟨hslash, honly⟩ := List.cons.inj heq
      obtain ⟨-, rfl⟩ := Placed.mk.inj hslash
      obtain ⟨rfl, rfl⟩ := Node.unique only only' h h' honly
      exact ⟨rfl, rfl⟩
  | .one slash only, .several .., _, _, _, _, heq => by
      rw [Beneath.tokens, Beneath.tokens] at heq
      exact absurd (List.cons.inj heq).2 (node_ne_openParen only)
  | .several .., .one slash' only', _, _, _, _, heq => by
      rw [Beneath.tokens, Beneath.tokens] at heq
      exact absurd (List.cons.inj heq).2.symm (node_ne_openParen only')
  | .several slash opening nodes closing, .several slash' opening' nodes' closing', _, _, _, _,
      heq => by
      rw [several_tokens, several_tokens] at heq
      obtain ⟨hslash, hrest⟩ := List.cons.inj heq
      obtain ⟨-, rfl⟩ := Placed.mk.inj hslash
      obtain ⟨hopening, hnodes⟩ := List.cons.inj hrest
      obtain ⟨-, rfl⟩ := Placed.mk.inj hopening
      obtain ⟨rfl, hafter⟩ := Nodes.unique nodes nodes' nextIs_closeParen nextIs_closeParen hnodes
      obtain ⟨hclosing, rfl⟩ := List.cons.inj hafter
      obtain ⟨-, rfl⟩ := Placed.mk.inj hclosing
      exact ⟨rfl, rfl⟩

end

/-! ### References -/

/-- The reference that the token is, unless it is to the target. -/
def captureReference? (token : Placed Token) : Option (String × Nat) :=
  match token.value with
  | .reference name => if name = "0" then none else some (name, token.position)
  | _ => none

theorem captureReference?_reference {name : String} (h : name ≠ "0") (position : Nat) :
    captureReference? ⟨.reference name, position⟩ = some (name, position) := if_neg h

theorem eq_of_captureReference? {token : Placed Token} {name : String} {position : Nat}
    (h : captureReference? token = some (name, position)) :
    token = ⟨.reference name, position⟩ ∧ name ≠ "0" := by
  obtain ⟨token, position'⟩ := token
  cases token with
  | reference name' =>
      by_cases hname : name' = "0"
      · exact absurd ((if_pos hname).symm.trans h) (by simp)
      · obtain ⟨rfl, rfl⟩ := Prod.mk.inj (Option.some.inj ((if_neg hname).symm.trans h))
        exact ⟨rfl, hname⟩
  | _ => exact absurd h (by simp [captureReference?])

mutual

theorem Node.references : ∀ node : Node,
    node.template.references = node.tokens.filterMap captureReference?
  | .literal ⟨.word text, position⟩ beneath => by
      show TemplateNode.referencesOf beneath.template = beneath.tokens.filterMap captureReference?
      exact beneath.references
  | .literal ⟨.quoted text, position⟩ beneath => by
      show TemplateNode.referencesOf beneath.template = beneath.tokens.filterMap captureReference?
      exact beneath.references
  | .reference ⟨name, position⟩ => by
      rw [Node.template, Node.tokens]
      by_cases hname : name = "0"
      · simp [hname, referenceHead, Placed.map, captureReference?, TemplateNode.references,
          TemplateNode.referencesOf]
      · simp [hname, referenceHead, Placed.map, captureReference?, TemplateNode.references,
          TemplateNode.referencesOf]

theorem Beneath.references : ∀ beneath : Beneath,
    TemplateNode.referencesOf beneath.template = beneath.tokens.filterMap captureReference?
  | .nothing => rfl
  | .one slash only => by
      rw [Beneath.template, Beneath.tokens, TemplateNode.referencesOf, TemplateNode.referencesOf,
        List.append_nil]
      exact only.references
  | .several slash opening nodes closing => by
      rw [Beneath.template, Beneath.tokens, nodes.references]
      show _ = List.filterMap captureReference? (nodes.tokens ++ [⟨.closeParen, closing⟩])
      rw [List.filterMap_append]
      exact (List.append_nil _).symm

theorem Nodes.references : ∀ nodes : Nodes,
    TemplateNode.referencesOf nodes.template = nodes.tokens.filterMap captureReference?
  | .mk first others => by
      rw [Nodes.template, Nodes.tokens, TemplateNode.referencesOf, List.filterMap_append,
        first.references, others.references]

theorem MoreNodes.references : ∀ others : MoreNodes,
    TemplateNode.referencesOf others.template = others.tokens.filterMap captureReference?
  | .nil => rfl
  | .cons comma node others => by
      rw [MoreNodes.template, MoreNodes.tokens, TemplateNode.referencesOf, node.references,
        others.references, List.filterMap_append]
      rfl

end

end Grammar

end TreeRules
