/-
Templates are read back from the text that they are written as.

The written text of a template that was read is cut into the tokens of a derivation again, so it is
read.  What is read has the nodes that were written, at other positions, and with the texts of new
nodes as they are reread: a bare word stands as it is, and between quotes a character that quoting
does not show as itself comes back as what quoting writes for it.  So the template comes back
exactly if each of its texts is a bare word or has only characters that are shown as themselves.

That every text comes back would be too much to say: a line feed is written `\n` and read as an `n`.
-/
import Mathlib
import TreeRules.Pattern.Compile
import TreeRules.Proofs.Pattern.Cut
import TreeRules.Proofs.Template.Grammar

namespace TreeRules

open TreeRules.Text

/-! ### Templates compared -/

namespace TemplateHead

/-- The head without the position where it stands. -/
def unplaced : TemplateHead → TemplateHead
  | capture name _ => .capture name 0
  | head => head

/-- The text of a new node as it is read where it is written. -/
def rereadText (text : String) : String :=
  if TemplateNode.isBare text then text
  else String.ofList (text.toList.flatMap Token.rereadChar)

/-- The head that is read where the head is written. -/
def reread : TemplateHead → TemplateHead
  | literal text => .literal (rereadText text)
  | head => head

theorem rereadText_eq_iff {text : String} :
    rereadText text = text ↔
      TemplateNode.isBare text = true ∨ ∀ c ∈ text.toList, isPrintable c = true := by
  unfold rereadText
  split
  · simp [*]
  · rename_i hbare
    rw [String.ext_iff, String.toList_ofList, Token.flatMap_rereadChar_eq_iff]
    simp [hbare]

theorem unplaced_reread_eq_iff {head : TemplateHead} :
    head.reread.unplaced = head.unplaced ↔
      ∀ text, head = .literal text → rereadText text = text := by
  cases head with
  | literal text => simp [reread, unplaced]
  | capture name position => simp [reread]
  | target => simp [reread]

end TemplateHead

namespace TemplateNode

mutual

/-- The node with `f` applied to its head and to every head beneath it. -/
def mapHeads (f : TemplateHead → TemplateHead) : TemplateNode → TemplateNode
  | node head children => .node (f head) (mapHeadsOf f children)

/-- Some nodes with `f` applied to every head of theirs. -/
def mapHeadsOf (f : TemplateHead → TemplateHead) : List TemplateNode → List TemplateNode
  | [] => []
  | first :: rest => mapHeads f first :: mapHeadsOf f rest

end

mutual

/-- The heads of the node and of those beneath it. -/
def heads : TemplateNode → List TemplateHead
  | node head children => head :: headsOf children

/-- The heads of some nodes and of those beneath them. -/
def headsOf : List TemplateNode → List TemplateHead
  | [] => []
  | first :: rest => heads first ++ headsOf rest

end

variable {f g : TemplateHead → TemplateHead}

mutual

theorem mapHeads_mapHeads : ∀ n : TemplateNode, (n.mapHeads g).mapHeads f = n.mapHeads (f ∘ g)
  | node head children => by
      simp only [mapHeads, mapHeadsOf_mapHeadsOf children, Function.comp]

theorem mapHeadsOf_mapHeadsOf : ∀ ns : List TemplateNode,
    mapHeadsOf f (mapHeadsOf g ns) = mapHeadsOf (f ∘ g) ns
  | [] => rfl
  | first :: rest => by
      simp only [mapHeadsOf, mapHeads_mapHeads first, mapHeadsOf_mapHeadsOf rest]

end

mutual

theorem mapHeads_eq_iff : ∀ n : TemplateNode,
    n.mapHeads f = n.mapHeads g ↔ ∀ head ∈ n.heads, f head = g head
  | node head children => by
      simp only [mapHeads, heads, node.injEq, List.forall_mem_cons, mapHeadsOf_eq_iff children]

theorem mapHeadsOf_eq_iff : ∀ ns : List TemplateNode,
    mapHeadsOf f ns = mapHeadsOf g ns ↔ ∀ head ∈ headsOf ns, f head = g head
  | [] => by simp [mapHeadsOf, headsOf]
  | first :: rest => by
      simp only [mapHeadsOf, headsOf, List.cons.injEq, List.forall_mem_append,
        mapHeads_eq_iff first, mapHeadsOf_eq_iff rest]

end

end TemplateNode

namespace Template

/-- The template with `f` applied to every head. -/
def mapHeads (f : TemplateHead → TemplateHead) (t : Template) : Template :=
  ⟨TemplateNode.mapHeadsOf f t.roots⟩

/-- The heads of the template's nodes, in the order of the text. -/
def heads (t : Template) : List TemplateHead := TemplateNode.headsOf t.roots

/-- The template without the positions of its references. -/
def unplaced (t : Template) : Template := t.mapHeads TemplateHead.unplaced

/-- The template that is read where the template is written, positions apart. -/
def reread (t : Template) : Template := t.mapHeads TemplateHead.reread

/-- The template comes back exactly if each of its texts does. -/
theorem unplaced_reread_eq_iff {t : Template} :
    t.reread.unplaced = t.unplaced ↔
      ∀ text, .literal text ∈ t.heads →
        TemplateNode.isBare text = true ∨ ∀ c ∈ text.toList, isPrintable c = true := by
  obtain ⟨roots⟩ := t
  simp only [unplaced, reread, mapHeads, heads, mk.injEq, TemplateNode.mapHeadsOf_mapHeadsOf,
    TemplateNode.mapHeadsOf_eq_iff, Function.comp, TemplateHead.unplaced_reread_eq_iff,
    TemplateHead.rereadText_eq_iff]
  constructor
  · exact fun h text hmem => h _ hmem text rfl
  · rintro h _ hmem text rfl
    exact h text hmem

end Template

/-! ### Written texts, character by character -/

/-- The head as a template writes it. -/
def TemplateHead.written : TemplateHead → List Char
  | literal text =>
    if TemplateNode.isBare text then text.toList
    else '"' :: (text.toList.flatMap quoteChar ++ ['"'])
  | capture name _ => '$' :: name.toList
  | target => ['$', '0']

namespace TemplateNode

/-- Nodes as a template writes them, with commas between them. -/
def writtenList (nodes : List TemplateNode) : List Char := (", ".intercalate (texts nodes)).toList

/-- Nodes as a template writes them after another, each after a comma. -/
def writtenMore : List TemplateNode → List Char
  | [] => []
  | first :: others => ',' :: ' ' :: ((text first).toList ++ writtenMore others)

/-- What a template writes beneath a node. -/
def writtenBeneath : List TemplateNode → List Char
  | [] => []
  | [child] => '/' :: (text child).toList
  | children => '/' :: '(' :: (writtenList children ++ [')'])

theorem writtenList_cons (first : TemplateNode) (others : List TemplateNode) :
    writtenList (first :: others) = (text first).toList ++ writtenMore others := by
  induction others generalizing first with
  | nil => simp [writtenList, texts, writtenMore]
  | cons second others ih =>
      have hmore : writtenList (second :: others) = _ := ih second
      rw [writtenList, texts] at hmore
      simp [writtenList, texts, writtenMore, String.intercalate_cons_cons, hmore]

theorem toList_text_leaf (head : TemplateHead) : (text (.node head [])).toList = head.written := by
  cases head with
  | literal text =>
      simp only [TemplateNode.text, TemplateHead.written]
      split
      · rfl
      · simp [quote]
  | capture name position =>
      simp only [TemplateNode.text, TemplateHead.written, String.toList_append]
      rfl
  | target => rfl

theorem toList_text (head : TemplateHead) (children : List TemplateNode) :
    (text (.node head children)).toList = head.written ++ writtenBeneath children := by
  rcases children with _ | ⟨first, _ | ⟨second, others⟩⟩
  · rw [toList_text_leaf, writtenBeneath, List.append_nil]
  · show (text (.node head []) ++ "/" ++ text first).toList = _
    rw [String.toList_append, String.toList_append, toList_text_leaf, List.append_assoc]
    rfl
  · show (text (.node head []) ++ "/(" ++
      ", ".intercalate (texts (first :: second :: others)) ++ ")").toList = _
    simp only [String.toList_append, toList_text_leaf, List.append_assoc]
    rfl

end TemplateNode

namespace Grammar

open Token TemplateNode

variable {start : Nat} {rest : List Char} {tokens tokens' : List (Placed Token)}

/-! ### What may be written -/

theorem isBare_iff {text : String} : isBare text = true ↔
    text.toList ≠ [] ∧ holdsArrow text.toList = false ∧ ∀ c ∈ text.toList, isWordChar c = true := by
  simp [isBare, and_assoc]

/-- The references of some tokens have names that can be written. -/
def Named (tokens : List (Placed Token)) : Prop :=
  ∀ name position, ⟨.reference name, position⟩ ∈ tokens →
    name.toList ≠ [] ∧ ∀ c ∈ name.toList, isWordChar c = true

theorem named_append : Named (tokens ++ tokens') ↔ Named tokens ∧ Named tokens' := by
  unfold Named
  constructor
  · exact fun h => ⟨fun name position hmem => h name position (List.mem_append_left _ hmem),
      fun name position hmem => h name position (List.mem_append_right _ hmem)⟩
  · rintro ⟨h, h'⟩ name position hmem
    exact (List.mem_append.mp hmem).elim (h name position) (h' name position)

theorem Named.tail {token : Placed Token} (h : Named (token :: tokens)) : Named tokens :=
  fun name position hmem => h name position (List.mem_cons_of_mem _ hmem)

/-- A head is written as something, and not with a slash in front. -/
theorem exists_written (head : TemplateHead) : ∃ c cs, head.written = c :: cs ∧ c ≠ '/' := by
  cases head with
  | literal text =>
      rw [TemplateHead.written]
      split
      · rename_i hbare
        obtain ⟨hne, -, hword⟩ := isBare_iff.mp hbare
        obtain ⟨c, cs, htext⟩ := List.exists_cons_of_ne_nil hne
        refine ⟨c, cs, htext, ?_⟩
        rintro rfl
        exact absurd (hword '/' (htext ▸ List.mem_cons_self)) (by decide)
      · exact ⟨'"', _, rfl, by decide⟩
  | capture name position => exact ⟨'$', _, rfl, by decide⟩
  | target => exact ⟨'$', _, rfl, by decide⟩

theorem head?_text (node : TemplateNode) (rest : List Char) :
    ((text node).toList ++ rest).head? ≠ some '/' := by
  obtain ⟨head, children⟩ := node
  obtain ⟨c, cs, hwritten, hc⟩ := exists_written head
  rw [toList_text, hwritten]
  exact fun h => hc (Option.some.inj h)

/-- What is written after a node cannot carry on a word. -/
theorem delimited_writtenBeneath (nodes : List TemplateNode) (hrest : Delimited rest) :
    Delimited (writtenBeneath nodes ++ rest) := by
  rcases nodes with _ | ⟨first, _ | ⟨second, others⟩⟩
  · exact hrest
  · exact delimited_cons (by decide) (by decide) _
  · exact delimited_cons (by decide) (by decide) _

theorem delimited_writtenMore (nodes : List TemplateNode) (hrest : Delimited rest) :
    Delimited (writtenMore nodes ++ rest) := by
  cases nodes with
  | nil => exact hrest
  | cons first others => exact delimited_cons (by decide) (by decide) _

/-! ### Written texts are cut into derivations -/

theorem cuts_literal (text : String) (start : Nat) (hrest : Delimited rest) :
    ∃ (literal : Placed Literal) (finish : Nat),
      Cuts start ((TemplateHead.literal text).written ++ rest) [literal.map Literal.token]
        finish rest ∧ literal.value.text = TemplateHead.rereadText text := by
  rw [TemplateHead.written, TemplateHead.rereadText]
  split
  · rename_i hbare
    obtain ⟨hne, -, hword⟩ := isBare_iff.mp hbare
    obtain ⟨c, run, htext⟩ := List.exists_cons_of_ne_nil hne
    rw [htext] at hword ⊢
    obtain ⟨hc, hrun⟩ := List.forall_mem_cons.mp hword
    refine ⟨⟨.word (String.ofList (c :: run)), start⟩, _,
      .cons (not_isBlank hc) (take_word start hc hrun hrest) (.nil _ _), ?_⟩
    rw [← htext]
    exact String.ofList_toList
  · have htake := take_quoted start text.toList rest
    rw [List.cons_append, List.append_assoc]
    exact ⟨⟨.quoted (String.ofList (text.toList.flatMap rereadChar)), start⟩, _,
      .cons (by decide) htake (.nil _ _), rfl⟩

theorem cuts_reference (name : Placed String) (start : Nat) (hname : Named [name.map .reference])
    (hrest : Delimited rest) :
    ∃ finish, Cuts start ((referenceHead name).written ++ rest) [⟨.reference name.value, start⟩]
      finish rest := by
  obtain ⟨name, position⟩ := name
  obtain ⟨hne, hword⟩ := hname name position List.mem_cons_self
  have hwritten : (referenceHead ⟨name, position⟩).written = '$' :: name.toList := by
    unfold referenceHead
    split
    · rename_i h
      obtain rfl : name = "0" := h
      rfl
    · rfl
  have htake := take_reference start hne hword hrest
  rw [String.ofList_toList] at htake
  rw [hwritten]
  exact ⟨_, .cons (by decide) htake (.nil _ _)⟩

theorem unplaced_reread_referenceHead (name : Placed String) (position : Nat) :
    (referenceHead name).reread.unplaced = (referenceHead ⟨name.value, position⟩).unplaced := by
  unfold referenceHead
  split <;> rfl

mutual

/-- **A node that is written is cut into a derivation of what is reread.** -/
theorem Node.cuts : ∀ (node : Node) {rest : List Char} (start : Nat), Named node.tokens →
    Delimited rest → ∃ (node' : Node) (finish : Nat),
      Cuts start ((text node.template).toList ++ rest) node'.tokens finish rest ∧
        node'.template.mapHeads .unplaced = (node.template.mapHeads .reread).mapHeads .unplaced
  | .literal literal beneath, rest, start, hnamed, hrest => by
      rw [Node.tokens] at hnamed
      rw [Node.template, toList_text, List.append_assoc]
      obtain ⟨literal', middle, hliteral, htext⟩ :=
        cuts_literal literal.value.text start (delimited_writtenBeneath beneath.template hrest)
      obtain ⟨beneath', finish, hbeneath, hsame⟩ := beneath.cuts middle hnamed.tail hrest
      refine ⟨.literal literal' beneath', finish, ?_, ?_⟩
      · rw [Node.tokens]
        exact hliteral.append hbeneath
      · simp only [Node.template, mapHeads, hsame, htext]
        rfl
  | .reference name, rest, start, hnamed, hrest => by
      rw [Node.tokens] at hnamed
      obtain ⟨finish, hcuts⟩ := cuts_reference name start hnamed hrest
      refine ⟨.reference ⟨name.value, start⟩, finish, ?_, ?_⟩
      · rw [Node.template, toList_text, writtenBeneath, List.append_nil]
        exact hcuts
      · simp only [Node.template, mapHeads, mapHeadsOf, unplaced_reread_referenceHead name start]

theorem Beneath.cuts : ∀ (beneath : Beneath) {rest : List Char} (start : Nat),
    Named beneath.tokens → Delimited rest → ∃ (beneath' : Beneath) (finish : Nat),
      Cuts start (writtenBeneath beneath.template ++ rest) beneath'.tokens finish rest ∧
        mapHeadsOf .unplaced beneath'.template =
          mapHeadsOf .unplaced (mapHeadsOf .reread beneath.template)
  | .nothing, rest, start, _, _ => ⟨.nothing, start, .nil _ _, rfl⟩
  | .one _ only, rest, start, hnamed, hrest => by
      rw [Beneath.tokens] at hnamed
      obtain ⟨only', finish, honly, hsame⟩ := only.cuts (start + 1) hnamed.tail hrest
      refine ⟨.one start only', finish, ?_, ?_⟩
      · rw [Beneath.tokens, Beneath.template]
        exact .slash (head?_text only.template rest) honly
      · simp only [Beneath.template, mapHeadsOf, hsame]
  | .several _ _ (.mk first .nil) _, rest, start, hnamed, hrest => by
      -- parentheses around a single node are not written
      rw [several_tokens_eq, Nodes.tokens] at hnamed
      have hfirst := (named_append.mp (named_append.mp hnamed.tail.tail).1).1
      obtain ⟨first', finish, hfirst, hsame⟩ := first.cuts (start + 1) hfirst hrest
      refine ⟨.one start first', finish, ?_, ?_⟩
      · rw [Beneath.tokens]
        exact .slash (head?_text first.template rest) hfirst
      · simp only [Beneath.template, Nodes.template, MoreNodes.template, mapHeadsOf, hsame]
  | .several _ _ (.mk first (.cons between second others)) _, rest, start, hnamed, hrest => by
      have hclose : Delimited (')' :: rest) := delimited_cons (by decide) (by decide) rest
      rw [several_tokens_eq] at hnamed
      obtain ⟨nodes', finish, hnodes, hsame⟩ := Nodes.cuts (.mk first (.cons between second others))
        (start + 1 + 1) (named_append.mp hnamed.tail.tail).1 hclose
      refine ⟨.several start (start + 1) nodes' finish, finish + 1, ?_, ?_⟩
      · have hclosing : Cuts finish (')' :: rest) [⟨.closeParen, finish⟩] (finish + 1) rest :=
          .single rfl (by decide) (.nil _ _)
        have hopening := Cuts.single (c := '(') rfl (by decide) (hnodes.append hclosing)
        have hcuts := Cuts.slash (by simp) hopening
        rw [several_tokens_eq]
        simpa [Beneath.template, writtenBeneath, Nodes.template, MoreNodes.template] using hcuts
      · simp only [Beneath.template, hsame]

theorem Nodes.cuts : ∀ (nodes : Nodes) {rest : List Char} (start : Nat),
    Named nodes.tokens → Delimited rest → ∃ (nodes' : Nodes) (finish : Nat),
      Cuts start (writtenList nodes.template ++ rest) nodes'.tokens finish rest ∧
        mapHeadsOf .unplaced nodes'.template =
          mapHeadsOf .unplaced (mapHeadsOf .reread nodes.template)
  | .mk first others, rest, start, hnamed, hrest => by
      rw [Nodes.tokens, named_append] at hnamed
      rw [Nodes.template, writtenList_cons, List.append_assoc]
      obtain ⟨first', middle, hfirst, hsame⟩ :=
        first.cuts start hnamed.1 (delimited_writtenMore others.template hrest)
      obtain ⟨others', finish, hothers, hsame'⟩ := others.cuts middle hnamed.2 hrest
      refine ⟨.mk first' others', finish, ?_, ?_⟩
      · rw [Nodes.tokens]
        exact hfirst.append hothers
      · simp only [Nodes.template, mapHeadsOf, hsame, hsame']

theorem MoreNodes.cuts : ∀ (others : MoreNodes) {rest : List Char} (start : Nat),
    Named others.tokens → Delimited rest → ∃ (others' : MoreNodes) (finish : Nat),
      Cuts start (writtenMore others.template ++ rest) others'.tokens finish rest ∧
        mapHeadsOf .unplaced others'.template =
          mapHeadsOf .unplaced (mapHeadsOf .reread others.template)
  | .nil, rest, start, _, _ => ⟨.nil, start, .nil _ _, rfl⟩
  | .cons _ next others, rest, start, hnamed, hrest => by
      rw [MoreNodes.tokens, List.cons_append] at hnamed
      have hnamed := named_append.mp hnamed.tail
      obtain ⟨next', middle, hnext, hsame⟩ :=
        next.cuts (start + 2) hnamed.1 (delimited_writtenMore others.template hrest)
      obtain ⟨others', finish, hothers, hsame'⟩ := others.cuts middle hnamed.2 hrest
      refine ⟨.cons start next' others', finish, ?_, ?_⟩
      · have hblank := hnext.blank (show isBlank ' ' = true by decide)
        have hcuts := Cuts.single (c := ',') rfl (by decide) (hblank.append hothers)
        simpa [MoreNodes.template, writtenMore, MoreNodes.tokens] using hcuts
      · simp only [MoreNodes.template, mapHeadsOf, hsame, hsame']

end

/-! ### No arrow stands in a template -/

mutual

theorem Node.not_arrow : ∀ (node : Node), ∀ token ∈ node.tokens, token.value ≠ .arrow
  | .literal ⟨literal, _⟩ beneath => by
      rw [Node.tokens, List.forall_mem_cons]
      refine ⟨?_, beneath.not_arrow⟩
      cases literal <;> exact Token.noConfusion
  | .reference name => by
      rw [Node.tokens, List.forall_mem_singleton]
      exact Token.noConfusion

theorem Beneath.not_arrow : ∀ (beneath : Beneath), ∀ token ∈ beneath.tokens, token.value ≠ .arrow
  | .nothing => by
      rw [Beneath.tokens]
      exact List.forall_mem_nil _
  | .one _ only => by
      rw [Beneath.tokens, List.forall_mem_cons]
      exact ⟨Token.noConfusion, only.not_arrow⟩
  | .several _ _ nodes _ => by
      rw [several_tokens_eq, List.forall_mem_cons, List.forall_mem_cons, List.forall_mem_append,
        List.forall_mem_singleton]
      exact ⟨Token.noConfusion, Token.noConfusion, nodes.not_arrow, Token.noConfusion⟩

theorem Nodes.not_arrow : ∀ (nodes : Nodes), ∀ token ∈ nodes.tokens, token.value ≠ .arrow
  | .mk first others => by
      rw [Nodes.tokens, List.forall_mem_append]
      exact ⟨first.not_arrow, others.not_arrow⟩

theorem MoreNodes.not_arrow : ∀ (others : MoreNodes), ∀ token ∈ others.tokens,
    token.value ≠ .arrow
  | .nil => by
      rw [MoreNodes.tokens]
      exact List.forall_mem_nil _
  | .cons _ next others => by
      rw [MoreNodes.tokens, List.cons_append, List.forall_mem_cons, List.forall_mem_append]
      exact ⟨Token.noConfusion, next.not_arrow, others.not_arrow⟩

end

/-- Where a text is a template, the names that it refers to can be written. -/
theorem Nodes.named {text : String} (nodes : Nodes) (h : readAll text = .ok nodes.tokens) :
    Named nodes.tokens := by
  intro name position hmem
  obtain ⟨hword, harrow⟩ := name_of_readFrom text.toList h hmem
  refine ⟨fun hnil => ?_, hword⟩
  obtain ⟨position, hmem⟩ := harrow hnil
  exact nodes.not_arrow _ hmem rfl

end Grammar

namespace Template

open Grammar

variable {source : String} {t : Template}

theorem of_read (h : read source = .ok t) :
    ∃ roots : Option Nodes, Token.readAll source = .ok ((roots.map Nodes.tokens).getD []) ∧
      ⟨(roots.map Nodes.template).getD []⟩ = t := by
  unfold read at h
  obtain ⟨tokens, htokens, h⟩ := Pattern.ok_of_bind h
  obtain ⟨⟨template, s⟩, hfrom, h⟩ := Pattern.ok_of_bind h
  obtain ⟨⟨⟩, hfinish, h⟩ := Pattern.ok_of_bind h
  obtain rfl := Except.ok.inj h
  obtain ⟨roots, hroots, htemplate⟩ := of_readFrom hfrom (finish_eq_ok.mp hfinish)
  exact ⟨roots, htokens.trans (congrArg Except.ok hroots), htemplate⟩

theorem read_of_tokens (roots : Option Nodes)
    (h : Token.readAll source = .ok ((roots.map Nodes.tokens).getD [])) :
    read source = .ok ⟨(roots.map Nodes.template).getD []⟩ := by
  unfold read
  rw [h]
  show (readFrom _ ⟨_, []⟩ >>= _) = _
  rw [readFrom_of_tokens roots]
  rfl

/-- What a template that was read is written as is read, as the template reread. -/
theorem exists_read_text (h : read source = .ok t) :
    ∃ t' : Template, read t.text = .ok t' ∧ t'.unplaced = t.reread.unplaced := by
  obtain ⟨roots, hroots, rfl⟩ := of_read h
  cases roots with
  | none =>
      have hempty : Token.readAll "" = .ok [] := by
        show Token.readFrom 0 [] = .ok []
        rw [Token.readFrom]
      exact ⟨⟨[]⟩, read_of_tokens none hempty, rfl⟩
  | some nodes =>
      obtain ⟨nodes', finish, hcuts, hsame⟩ :=
        nodes.cuts 0 (nodes.named hroots) Token.delimited_nil
      rw [List.append_nil] at hcuts
      exact ⟨⟨nodes'.template⟩, read_of_tokens (some nodes') hcuts.readFrom_eq,
        congrArg Template.mk hsame⟩

/-- **A template that was read is read back from the text that it is written as, with its texts as
they are reread.**  It comes back as it was, positions apart, exactly if each text of a new node is a
bare word or has only characters that quoting shows as themselves. -/
theorem read_text (h : read source = .ok t) :
    ∃ t' : Template, read t.text = .ok t' ∧ t'.unplaced = t.reread.unplaced ∧
      (t'.unplaced = t.unplaced ↔ ∀ literal, .literal literal ∈ t.heads →
        TemplateNode.isBare literal = true ∨ ∀ c ∈ literal.toList, isPrintable c = true) := by
  obtain ⟨t', hread, hsame⟩ := exists_read_text h
  refine ⟨t', hread, hsame, ?_⟩
  rw [hsame]
  exact unplaced_reread_eq_iff

/-- A node with a text that comes back and one that does not, parentheses around a single node, and
both kinds of references. -/
def pair : Template :=
  ⟨[.node (.literal "pair") [
    .node (.literal "two words") [],
    .node (.literal "a\nb") [.node (.capture "x" 26) []],
    .node .target []]]⟩

theorem read_pair : read "pair/(\"two words\", \"a\nb\"/($x), $0)" = .ok pair := by
  cbv

theorem read_text_pair :
    read "pair/(\"two words\", \"a\nb\"/($x), $0)" = .ok pair ∧
      ∃ t' : Template, read pair.text = .ok t' ∧ t'.unplaced = pair.reread.unplaced ∧
        (t'.unplaced = pair.unplaced ↔ ∀ literal, .literal literal ∈ pair.heads →
          TemplateNode.isBare literal = true ∨ ∀ c ∈ literal.toList, isPrintable c = true) :=
  ⟨read_pair, read_text read_pair⟩

/-- **Not every template that is read comes back as it was**: the text of two lines is written with
`\n` for the line feed, and read with an `n` in its place. -/
theorem line_feed_does_not_come_back :
    ¬ ∀ (source : String) (t : Template), read source = .ok t →
      ∃ t' : Template, read t.text = .ok t' ∧ t'.unplaced = t.unplaced := by
  intro h
  have hread : read "\"a\nb\"" = .ok ⟨[.node (.literal "a\nb") []]⟩ := by
    cbv
  have hreread : read "\"a\\nb\"" = .ok ⟨[.node (.literal "anb") []]⟩ := by
    cbv
  have htext : text ⟨[.node (.literal "a\nb") []]⟩ = "\"a\\nb\"" := by
    cbv
  obtain ⟨t', ht', hsame⟩ := h _ _ hread
  rw [htext, hreread] at ht'
  obtain rfl := Except.ok.inj ht'
  simp [unplaced, mapHeads, TemplateNode.mapHeadsOf, TemplateNode.mapHeads,
    TemplateHead.unplaced] at hsame

end Template

end TreeRules
