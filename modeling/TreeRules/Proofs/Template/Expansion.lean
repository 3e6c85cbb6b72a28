/-
What an instance of a template looks like.

A template is expanded into value trees: a literal is a node over what comes beneath it, and a
reference stands for the trees of the nodes that it refers to.  An instance looks like that, as long
as no node that is moved lies within another node that has a use: then taking it out changes nothing
that is still to be used, nor what has been built so far.
-/
import TreeRules.Proofs.Template.Frame

namespace TreeRules

mutual

/-- The trees that a node of a template stands for, when nodes of the match look like `tree`. -/
def TemplateNode.expand (m : Match) (tree : NodeId → ValueTree) : TemplateNode → List ValueTree
  | .node (.literal text) beneath => [.node text (expandAll m tree beneath)]
  | .node .target _ => [tree m.target]
  | .node (.capture name _) _ => (m.nodes name).map tree

/-- The trees that some nodes of a template stand for. -/
def TemplateNode.expandAll (m : Match) (tree : NodeId → ValueTree) :
    List TemplateNode → List ValueTree
  | [] => []
  | first :: others => expand m tree first ++ expandAll m tree others

end

/-- The trees that a template stands for, when nodes of the match look like `tree`. -/
def Template.expand (t : Template) (m : Match) (tree : NodeId → ValueTree) : List ValueTree :=
  TemplateNode.expandAll m tree t.roots

/-- The nodes of the match that a template stands for. -/
def Template.uses (t : Template) (m : Match) : List NodeId := TemplateNode.usesOf m t.roots

namespace Instance

variable {m : Match} {used : NodeId → Prop} {tree : NodeId → ValueTree} {b b' b'' : Instance}
  {n r : NodeId} {roots roots' : List NodeId}

/-- The nodes that have a use look like `tree`, and those that can be moved lie apart. -/
structure Ready (m : Match) (used : NodeId → Prop) (tree : NodeId → ValueTree) (f : Forest) :
    Prop where
  lt_size : ∀ n, used n → n < f.size
  tree : ∀ n, used n → f.tree n = tree n
  apart : ∀ x y, used x → used y → x ≠ y → f.Within x m.target → ¬ f.Within x y

theorem Ready.newNode {f : Forest} (hready : Ready m used tree f) (hf : f.WellFormed)
    (text : String) : Ready m used tree (f.newNode text).1 where
  lt_size := by
    intro n hn
    exact Nat.lt_trans (hready.lt_size n hn) (f.lt_size_newNode text)
  tree := by
    intro n hn
    rw [(hf.extends_newNode text).tree_eq hf (hready.lt_size n hn), hready.tree n hn]
  apart := by
    intro x y hx hy hne
    rw [Forest.within_newNode, Forest.within_newNode]
    exact hready.apart x y hx hy hne

namespace Adds

/-- A tree from beneath whose root nothing is moved stays as it is. -/
theorem tree_eq (h : Adds m used b b' roots) (hb : b.forest.WellFormed) (hn : n < b.forest.size)
    (hstays : ∀ x, Moves b b' x → b.forest.Within x n → x = n) :
    b'.forest.tree n = b.forest.tree n := by
  refine hb.tree_congr h.wellFormed n (fun x hx => ?_) fun x hx => ?_
  · exact h.value x (Forest.lt_size_of_within hn hx)
  · rw [h.children x (Forest.lt_size_of_within hn hx), List.filter_eq_self]
    intro c hc
    rw [decide_eq_true_eq]
    intro hmove
    have hup : b.forest.parent c = some x := (hb.parent_iff c x).mpr hc
    obtain rfl := hstays c hmove (Forest.Within.of_parent hup hx)
    exact hb.acyclic c (Relation.TransGen.head' hup hx)

/-- Nodes that are still to be used look as before. -/
theorem ready (h : Adds m used b b' roots) (hb : b.forest.WellFormed)
    (ht : m.target < b.forest.size) (hready : Ready m used tree b.forest) :
    Ready m used tree b'.forest where
  lt_size := by
    intro n hn
    exact Nat.lt_of_lt_of_le (hready.lt_size n hn) h.size_le
  tree := by
    intro n hn
    rw [h.tree_eq hb (hready.lt_size n hn) fun x hmove hx => ?_, hready.tree n hn]
    by_contra hne
    obtain ⟨hused, hwithin⟩ := h.moves x hmove
    exact hready.apart x n hused hn hne hwithin hx
  apart := by
    intro x y hx hy hne hwithin hxy
    have hlt := hready.lt_size x hx
    exact hready.apart x y hx hy hne (h.within_of_within hb hlt ht hwithin)
      (h.within_of_within hb hlt (hready.lt_size y hy) hxy)

/-- What has been built looks as before when more is built. -/
theorem tree_roots (h : Adds m used b b' roots) (h' : Adds m used b' b'' roots')
    (hb : b.forest.WellFormed) (ht : m.target < b.forest.size)
    (hready : Ready m used tree b.forest) :
    roots.map b''.forest.tree = roots.map b'.forest.tree := by
  have hready' := h.ready hb ht hready
  refine List.map_congr_left fun r hr => ?_
  refine h'.tree_eq h.wellFormed (h.lt_size r hr) fun x hmove hx => ?_
  obtain ⟨hused, hwithin⟩ := h'.moves x hmove
  -- a moved node that has come to lie beneath `r`, or is `r` itself, has been used before
  have hmoved : ∃ y, Moves b b' y ∧ b'.forest.Within x y := by
    rcases h.fresh r hr with hnew | hr
    · exact h.exists_moves_of_within hb (hready.lt_size x hused) hnew hx
    · exact ⟨r, hr, hx⟩
  obtain ⟨y, hy, hxy⟩ := hmoved
  have hne : x ≠ y := by
    rintro rfl
    exact hmove.2 hy.1
  exact absurd hxy (hready'.apart x y hused (h.moves y hy).1 hne hwithin)

end Adds

/-! ### The parts of an instance -/

theorem tree_use (hb : b.forest.WellFormed) (ht : m.target < b.forest.size) (hn : used n)
    (hready : Ready m used tree b.forest) :
    (b.use m n).1.forest.tree (b.use m n).2 = tree n := by
  by_cases hmove : (b.forest.encloses m.target n && !b.moved.contains n) = true
  · have hready' := (adds_use hb ht hn).ready hb ht hready
    rw [use, if_pos hmove] at hready' ⊢
    exact hready'.tree n hn
  · rw [use, if_neg hmove]
    have hclone := Forest.planted_deepClone hb n
    have hroot : (b.forest.deepClone n).2 = b.forest.size := Forest.plant_snd b.forest _
    show (b.forest.deepClone n).1.tree (b.forest.deepClone n).2 = tree n
    rw [hroot, hclone.tree_root, hready.tree n hn]

theorem tree_useAll (ns : List NodeId) :
    ∀ {b : Instance}, b.forest.WellFormed → m.target < b.forest.size → (∀ n ∈ ns, used n) →
      Ready m used tree b.forest →
      (b.useAll m ns).2.map (b.useAll m ns).1.forest.tree = ns.map tree := by
  induction ns with
  | nil => intro b _ _ _ _; rfl
  | cons n ns ih =>
      intro b hb ht hused hready
      rw [List.forall_mem_cons] at hused
      have huse := adds_use hb ht hused.1
      have ht' := Nat.lt_of_lt_of_le ht huse.size_le
      have hrest := adds_useAll ns huse.wellFormed ht' hused.2
      have hfirst := huse.tree_roots hrest hb ht hready
      rw [List.map_singleton, List.map_singleton, tree_use hb ht hused.1 hready,
        List.cons.injEq] at hfirst
      rw [useAll, List.map_cons, List.map_cons,
        ih huse.wellFormed ht' hused.2 (huse.ready hb ht hready)]
      congr 1
      exact hfirst.1

theorem tree_literal {text : String}
    (h : Adds m used { b with forest := (b.forest.newNode text).1 } b' roots)
    (ht : m.target < b.forest.size) :
    (b'.forest.pushChildren b.forest.size roots).tree b.forest.size =
      .node text (roots.map b'.forest.tree) := by
  have hlt := Forest.lt_size_newNode b.forest text
  obtain ⟨hloose, -, hchildren⟩ := h.loose ht
  have hlt' := Nat.lt_of_lt_of_le hlt h.size_le
  have hhung := Forest.Loose.hung_pushChildren h.wellFormed hlt' hloose
  have hvalue : (b.forest.newNode text).1.value b.forest.size = text := by
    rw [Forest.value_newNode, if_pos rfl]
  rw [hhung.wellFormed.tree_eq, hhung.value, h.value _ hlt, hvalue, hhung.children_self, hchildren,
    List.nil_append, List.append_nil]
  congr 1
  exact List.map_congr_left fun r hr => hhung.tree_eq h.wellFormed (hloose.apart r hr)

mutual

theorem tree_node : ∀ (t : TemplateNode) {b : Instance}, b.forest.WellFormed →
    m.target < b.forest.size → (∀ n ∈ t.uses m, used n) → Ready m used tree b.forest →
    (node m b t).2.map (node m b t).1.forest.tree = t.expand m tree
  | .node (.literal text) beneath, b, hb, ht, hused, hready => by
      have ht' := Nat.lt_trans ht (Forest.lt_size_newNode b.forest text)
      rw [TemplateNode.uses] at hused
      have hready' := hready.newNode hb text
      have hbuilt := adds_nodes beneath (b := { b with forest := (b.forest.newNode text).1 })
        (hb.newNode text) ht' hused
      have hbeneath := tree_nodes beneath (b := { b with forest := (b.forest.newNode text).1 })
        (hb.newNode text) ht' hused hready'
      rw [node, TemplateNode.expand, ← hbeneath, ← tree_literal hbuilt ht]
      rfl
  | .node .target _, b, hb, ht, hused, hready => by
      rw [TemplateNode.uses, List.forall_mem_singleton] at hused
      rw [node, TemplateNode.expand, ← tree_use hb ht hused hready]
      rfl
  | .node (.capture name _) _, b, hb, ht, hused, hready => by
      rw [TemplateNode.uses] at hused
      rw [node, TemplateNode.expand]
      exact tree_useAll (m.nodes name) hb ht hused hready

theorem tree_nodes : ∀ (ts : List TemplateNode) {b : Instance}, b.forest.WellFormed →
    m.target < b.forest.size → (∀ n ∈ TemplateNode.usesOf m ts, used n) →
    Ready m used tree b.forest →
    (nodes m b ts).2.map (nodes m b ts).1.forest.tree = TemplateNode.expandAll m tree ts
  | [], b, _, _, _, _ => by
      rw [nodes, TemplateNode.expandAll]
      rfl
  | first :: others, b, hb, ht, hused, hready => by
      rw [TemplateNode.usesOf, List.forall_mem_append] at hused
      have hfirst := adds_node first hb ht hused.1
      have ht' := Nat.lt_of_lt_of_le ht hfirst.size_le
      have hothers := adds_nodes others hfirst.wellFormed ht' hused.2
      rw [nodes, TemplateNode.expandAll, List.map_append,
        ← tree_node first hb ht hused.1 hready,
        ← tree_nodes others hfirst.wellFormed ht' hused.2 (hfirst.ready hb ht hready)]
      congr 1
      exact hfirst.tree_roots hothers hb ht hready

end

end Instance

end TreeRules
