/-
Which nodes an instance moves, and where they come to lie.

No node is moved twice.  A node that is moved while a part of an instance is built lies at or
beneath one of the roots that the part is built as, and it stays there: what is moved later lies
within the target at that time, and nothing that has been built does.

Nothing is reported while an instance is built, and every node keeps its records.
-/
import TreeRules.Proofs.Forest.Preorder
import TreeRules.Proofs.Forest.Records
import TreeRules.Proofs.Template.Frame

namespace TreeRules

namespace Instance

variable {m : Match} {used : NodeId → Prop} {b b' b'' : Instance} {n x r : NodeId}
  {roots roots' : List NodeId}

/-! ### What every step keeps -/

/-- A property of instances that no step of the building takes away. -/
structure Kept (m : Match) (P : Instance → Prop) : Prop where
  use : ∀ b n, P b → P (b.use m n).1
  newNode : ∀ b text, P b → P { b with forest := (b.forest.newNode text).1 }
  pushChildren : ∀ b p roots, P b → P { b with forest := b.forest.pushChildren p roots }

namespace Kept

variable {P : Instance → Prop}

theorem useAll (hP : Kept m P) (ns : List NodeId) : ∀ b, P b → P (b.useAll m ns).1 := by
  induction ns with
  | nil => intro b hb; exact hb
  | cons n ns ih => intro b hb; exact ih _ (hP.use b n hb)

mutual

theorem node (hP : Kept m P) : ∀ (t : TemplateNode) (b : Instance), P b → P (node m b t).1
  | .node (.literal text) beneath, b, hb => by
      rw [Instance.node]
      exact hP.pushChildren _ _ _ (hP.nodes beneath _ (hP.newNode b text hb))
  | .node .target _, b, hb => by
      rw [Instance.node]
      exact hP.use b m.target hb
  | .node (.capture name _) _, b, hb => by
      rw [Instance.node]
      exact hP.useAll (m.nodes name) b hb

theorem nodes (hP : Kept m P) : ∀ (ts : List TemplateNode) (b : Instance), P b → P (nodes m b ts).1
  | [], b, hb => by
      rw [Instance.nodes]
      exact hb
  | first :: others, b, hb => by
      rw [Instance.nodes]
      exact hP.nodes others _ (hP.node first b hb)

end

end Kept

theorem use_cases (m : Match) (b : Instance) (n : NodeId) :
    (n ∉ b.moved ∧ b.use m n = ({ forest := b.forest.detach n, moved := b.moved ++ [n] }, n)) ∨
      b.use m n = ({ b with forest := (b.forest.deepClone n).1 }, (b.forest.deepClone n).2) := by
  by_cases hmove : (b.forest.encloses m.target n && !b.moved.contains n) = true
  · rw [use, if_pos hmove]
    rw [Bool.and_eq_true, Bool.not_eq_true', ← Bool.not_eq_true, List.contains_iff_mem] at hmove
    exact Or.inl ⟨hmove.2, rfl⟩
  · rw [use, if_neg hmove]
    exact Or.inr rfl

/-- **No node is moved twice.** -/
theorem kept_nodup (m : Match) : Kept m fun b => b.moved.Nodup where
  use := by
    intro b n hb
    rcases use_cases m b n with ⟨hnot, huse⟩ | huse
    · rw [huse]
      refine List.nodup_append.mpr ⟨hb, List.nodup_singleton n, ?_⟩
      intro x hx y hy heq
      rw [List.mem_singleton] at hy
      exact hnot (hy ▸ heq ▸ hx)
    · rw [huse]
      exact hb
  newNode := by intro b _ hb; exact hb
  pushChildren := by intro b _ _ hb; exact hb

/-- **Nothing is reported in the meantime.** -/
theorem kept_silent (m : Match) (f : Forest) : Kept m fun b => f.Silent b.forest where
  use := by
    intro b n hb
    rcases use_cases m b n with ⟨-, huse⟩ | huse
    · rw [huse]
      exact hb.trans (Forest.silent_detach b.forest n)
    · rw [huse]
      exact hb.trans (Forest.silent_plant _ b.forest)
  newNode := by
    intro b text hb
    exact hb.trans (Forest.silent_newNode b.forest text)
  pushChildren := by
    intro b p roots hb
    exact hb.trans (Forest.silent_pushChildren b.forest p roots)

/-! ### Where moved nodes come to lie -/

/-- Where something built lies, it stays. -/
theorem Adds.within_of_fresh (h : Adds m used b b' roots) (h' : Adds m used b' b'' roots')
    (hb : b.forest.WellFormed) (ht : m.target < b.forest.size) (hn : Fresh b b' n)
    (hw : b'.forest.Within n r) : b''.forest.Within n r := by
  induction hw using Relation.ReflTransGen.head_induction_on with
  | refl => exact Forest.Within.refl r
  | @head n p hp _ ih =>
      have hstays := h.not_moves_of_fresh h' hb ht hn
      have hp' : b''.forest.parent n = some p :=
        (h'.parent n (Forest.lt_size_of_parent hp) hstays).trans hp
      exact Forest.Within.of_parent hp' (ih (Or.inl (h.size_le_parent hb hn hp)))

/-- Every node that is moved lies within one of the roots. -/
def Covers (b b' : Instance) (roots : List NodeId) : Prop :=
  ∀ n, Moves b b' n → ∃ r ∈ roots, b'.forest.Within n r

theorem Covers.append (hc : Covers b b' roots) (hc' : Covers b' b'' roots')
    (h : Adds m used b b' roots) (h' : Adds m used b' b'' roots') (hb : b.forest.WellFormed)
    (ht : m.target < b.forest.size) : Covers b b'' (roots ++ roots') := by
  intro n hn
  rcases (h.moves_iff h' n).mp hn with hfirst | hsecond
  · obtain ⟨r, hr, hw⟩ := hc n hfirst
    exact ⟨r, List.mem_append_left _ hr, h.within_of_fresh h' hb ht (Or.inr hfirst) hw⟩
  · obtain ⟨r, hr, hw⟩ := hc' n hsecond
    exact ⟨r, List.mem_append_right _ hr, hw⟩

theorem covers_use (m : Match) (b : Instance) (n : NodeId) :
    Covers b (b.use m n).1 [(b.use m n).2] := by
  intro x hx
  rcases use_cases m b n with ⟨-, huse⟩ | huse
  · rw [huse] at hx ⊢
    refine ⟨n, List.mem_cons_self, ?_⟩
    obtain hmem | heq := List.mem_append.mp hx.1
    · exact absurd hmem hx.2
    · exact List.mem_singleton.mp heq ▸ Forest.Within.refl x
  · rw [huse] at hx
    exact absurd hx.1 hx.2

theorem covers_useAll (ns : List NodeId) :
    ∀ {b : Instance}, b.forest.WellFormed → m.target < b.forest.size →
      Covers b (b.useAll m ns).1 (b.useAll m ns).2 := by
  induction ns with
  | nil => intro b _ _ n hn; exact absurd hn.1 hn.2
  | cons n ns ih =>
      intro b hb ht
      have huse : Adds m (fun _ => True) b (b.use m n).1 _ := adds_use hb ht trivial
      have ht' := Nat.lt_of_lt_of_le ht huse.size_le
      have hrest : Adds m (fun _ => True) (b.use m n).1 _ _ :=
        adds_useAll ns huse.wellFormed ht' fun _ _ => trivial
      exact (covers_use m b n).append (ih huse.wellFormed ht') huse hrest hb ht

/-- What lies within the roots lies within the new node that they are hung beneath. -/
theorem Covers.literal {text : String}
    (hc : Covers { b with forest := (b.forest.newNode text).1 } b' roots)
    (h : Adds m used { b with forest := (b.forest.newNode text).1 } b' roots)
    (ht : m.target < b.forest.size) :
    Covers b { b' with forest := b'.forest.pushChildren b.forest.size roots } [b.forest.size] := by
  intro n hn
  obtain ⟨hloose, -, -⟩ := h.loose ht
  have hhung := Forest.Loose.hung_pushChildren h.wellFormed
    (Nat.lt_of_lt_of_le (Forest.lt_size_newNode b.forest text) h.size_le) hloose
  obtain ⟨r, hr, hw⟩ := hc n hn
  have hparent : (b'.forest.pushChildren b.forest.size roots).parent r = some b.forest.size := by
    rw [hhung.parent, if_pos hr]
  exact ⟨_, List.mem_cons_self, (hhung.within hloose.top hw).tail hparent⟩

mutual

theorem covers_node : ∀ (t : TemplateNode) {b : Instance}, b.forest.WellFormed →
    m.target < b.forest.size → Covers b (node m b t).1 (node m b t).2
  | .node (.literal text) beneath, b, hb, ht => by
      have ht' := Nat.lt_trans ht (Forest.lt_size_newNode b.forest text)
      have hbeneath : Adds m (fun _ => True) { b with forest := (b.forest.newNode text).1 } _ _ :=
        adds_nodes beneath (hb.newNode text) ht' fun _ _ => trivial
      rw [node]
      exact (covers_nodes beneath (hb.newNode text) ht').literal hbeneath ht
  | .node .target _, b, _, _ => by
      rw [node]
      exact covers_use m b m.target
  | .node (.capture name _) _, b, hb, ht => by
      rw [node]
      exact covers_useAll (m.nodes name) hb ht

theorem covers_nodes : ∀ (ts : List TemplateNode) {b : Instance}, b.forest.WellFormed →
    m.target < b.forest.size → Covers b (nodes m b ts).1 (nodes m b ts).2
  | [], b, _, _ => by
      rw [nodes]
      intro n hn
      exact absurd hn.1 hn.2
  | first :: others, b, hb, ht => by
      have hfirst : Adds m (fun _ => True) b (node m b first).1 _ :=
        adds_node first hb ht fun _ _ => trivial
      have ht' := Nat.lt_of_lt_of_le ht hfirst.size_le
      have hothers : Adds m (fun _ => True) (node m b first).1 _ _ :=
        adds_nodes others hfirst.wellFormed ht' fun _ _ => trivial
      rw [nodes]
      exact (covers_node first hb ht).append (covers_nodes others hfirst.wellFormed ht') hfirst
        hothers hb ht

end

end Instance

end TreeRules
