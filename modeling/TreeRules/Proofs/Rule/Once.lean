/-
What one pass over a document does.

A pass finds its matches before it replaces any of them, and holds them by the names of their nodes.
That goes well because they keep clear of one another: a replacement edits its target's subtree
only, and no later match has a node there.  `Intact` is what is left of the document at each moment,
the nodes outside all targets replaced so far, and every match to come lies among them.

The document's root has no place to be replaced in, so it takes a single node.  A match whose target
is the root leaves no room for another.
-/
import TreeRules.Proofs.Matching.Find
import TreeRules.Proofs.Rule.Replacement
import TreeRules.Rule.Run

namespace TreeRules

namespace Document

variable {d d' d'' : Document} {done matched : List Match} {m : Match} {n p : NodeId}
  {template : Template} {t : Tally}

/-- A document is a whole tree: its root is a node of a well-formed forest and has no parent. -/
structure Whole (d : Document) : Prop where
  wellFormed : d.forest.WellFormed
  lt_size : d.root < d.forest.size
  parent_root : d.forest.parent d.root = none

/-- The node lies in the subtree of a target. -/
def Covered (d : Document) (done : List Match) (n : NodeId) : Prop :=
  ∃ k ∈ done, d.forest.Within n k.target

/-- A match somewhere in the document. -/
structure Fits (d : Document) (m : Match) : Prop where
  target_mem : m.target ∈ m.consumed
  within : ∀ n ∈ m.consumed, d.forest.Within n d.root

/-- The second document has come of the first by replacing the targets of some matches. -/
structure Intact (d d' : Document) (done : List Match) : Prop where
  wellFormed : d'.forest.WellFormed
  root : d'.root = d.root
  keeps : d.forest.Keeps d'.forest (d.Covered done)

/-! ### Nodes of the document -/

theorem Whole.lt_size_of_within (hd : d.Whole) (hn : d.forest.Within n d.root) :
    n < d.forest.size := Forest.lt_size_of_within hd.lt_size hn

theorem Whole.contains_iff (hd : d.Whole) : d.contains n = true ↔ d.forest.Within n d.root := by
  rw [contains, beq_iff_eq]
  exact hd.wellFormed.getLast?_ancestors_eq_some_iff hd.parent_root

/-- A match has lost no node exactly if it is one in the document. -/
theorem Whole.stillAttached_iff (hd : d.Whole) (htarget : m.target ∈ m.consumed) :
    Runner.stillAttached d m = true ↔ d.Fits m := by
  rw [Runner.stillAttached, List.all_eq_true]
  constructor
  · exact fun h => ⟨htarget, fun n hn => hd.contains_iff.mp (h n hn)⟩
  · exact fun h n hn => hd.contains_iff.mpr (h.within n hn)

/-- A node of the document other than the root has a parent. -/
theorem exists_parent_of_ne_root (hn : d.forest.Within n d.root) (hne : n ≠ d.root) :
    ∃ p, d.forest.parent n = some p := by
  rcases Forest.within_cases hn with rfl | ⟨p, hp, -⟩
  · exact absurd rfl hne
  · exact ⟨p, hp⟩

theorem Covered.of_parent (hp : d.forest.parent n = some p) (h : d.Covered done p) :
    d.Covered done n := by
  obtain ⟨k, hk, hpk⟩ := h
  exact ⟨k, hk, Forest.Within.of_parent hp hpk⟩

theorem Covered.cons (m : Match) (h : d.Covered done n) : d.Covered (m :: done) n := by
  obtain ⟨k, hk, hwithin⟩ := h
  exact ⟨k, List.mem_cons_of_mem m hk, hwithin⟩

theorem Whole.not_covered_root (hd : d.Whole) (hdone : ∀ k ∈ done, k.target ≠ d.root) :
    ¬ d.Covered done d.root := by
  rintro ⟨k, hk, hroot⟩
  exact hdone k hk (Forest.eq_of_within_of_parent_none hd.parent_root hroot).symm

/-- A match that keeps clear of others consumes no node that they replace. -/
theorem Whole.not_covered_of_clear (hd : d.Whole) (hclear : ∀ k ∈ done, m.Clear d.forest k)
    (hn : n ∈ m.consumed) : ¬ d.Covered done n := by
  rintro ⟨k, hk, hwithin⟩
  exact ((Match.clear_iff_within hd.wellFormed).mp (hclear k hk)).2 n hn hwithin

/-! ### One replacement -/

namespace Intact

theorem refl (hd : d.Whole) : Intact d d [] where
  wellFormed := hd.wellFormed
  root := rfl
  keeps := Forest.Keeps.refl d.forest _

theorem within_iff (h : Intact d d' done) (hd : d.Whole) (hn : n < d.forest.size)
    (hnot : ¬ d.Covered done n) {a : NodeId} : d'.forest.Within n a ↔ d.forest.Within n a :=
  h.keeps.within_iff hd.wellFormed (fun _ _ => Covered.of_parent) hn hnot

/-- As long as the root has not been replaced, the document is whole. -/
theorem whole (h : Intact d d' done) (hd : d.Whole) (hdone : ∀ k ∈ done, k.target ≠ d.root) :
    d'.Whole where
  wellFormed := h.wellFormed
  lt_size := by
    rw [h.root]
    exact Nat.lt_of_lt_of_le hd.lt_size h.keeps.size_le
  parent_root := by
    rw [h.root, h.keeps.parent d.root hd.lt_size (hd.not_covered_root hdone)]
    exact hd.parent_root

/-- A node outside the targets is still in its place. -/
theorem within_root (h : Intact d d' done) (hd : d.Whole) (hn : d.forest.Within n d.root)
    (hnot : ¬ d.Covered done n) : d'.forest.Within n d'.root := by
  rw [h.root]
  exact (h.within_iff hd (hd.lt_size_of_within hn) hnot).mpr hn

/-- **A node outside the targets stays in the document**, with its text and its parent. -/
theorem stays (h : Intact d d' done) (hd : d.Whole) (hn : n ∈ d.preorder)
    (hout : ∀ k ∈ done, n ∉ d.forest.preorder k.target) :
    n ∈ d'.preorder ∧ d'.forest.value n = d.forest.value n ∧
      d'.forest.parent n = d.forest.parent n := by
  have hwithin := hd.wellFormed.mem_preorder_iff.mp hn
  have hlt := hd.lt_size_of_within hwithin
  have hnot : ¬ d.Covered done n := by
    rintro ⟨k, hk, hnk⟩
    exact hout k hk (hd.wellFormed.mem_preorder_iff.mpr hnk)
  refine ⟨?_, h.keeps.value n hlt hnot, h.keeps.parent n hlt hnot⟩
  exact h.wellFormed.mem_preorder_iff.mpr (h.within_root hd hwithin hnot)

/-- **A match that keeps clear of those replaced has lost no node.** -/
theorem stillAttached (h : Intact d d' done) (hd : d.Whole)
    (hdone : ∀ k ∈ done, k.target ≠ d.root) (hm : d.Fits m)
    (hclear : ∀ k ∈ done, m.Clear d.forest k) : Runner.stillAttached d' m = true := by
  refine ((h.whole hd hdone).stillAttached_iff hm.target_mem).mpr ⟨hm.target_mem, fun n hn => ?_⟩
  exact h.within_root hd (hm.within n hn) (hd.not_covered_of_clear hclear hn)

/-- **One more target is replaced**, and no node is touched but those that it covers. -/
theorem apply (h : Intact d d' done) (hd : d.Whole) (hm : d.Fits m)
    (hclear : ∀ k ∈ done, m.Clear d.forest k) (hne : m.target ≠ d.root) (template : Template) :
    ∃ d'' applied, (Replacement.template template).apply d' m = (d'', .ok applied) ∧
      Intact d d'' (m :: done) := by
  have hin := hm.within m.target hm.target_mem
  have hlt := hd.lt_size_of_within hin
  have hnot := hd.not_covered_of_clear hclear hm.target_mem
  obtain ⟨p, hp⟩ := exists_parent_of_ne_root hin hne
  have hp' : d'.forest.parent m.target = some p :=
    (h.keeps.parent m.target hlt hnot).trans hp
  obtain ⟨applied, happlied⟩ := Replacement.applyTemplate_of_accepted template
    (Or.inl (by rw [hp']; simp))
  have hconfined := Replacement.confined_applyTemplate h.wellFormed
    (Nat.lt_of_lt_of_le hlt h.keeps.size_le) template
  refine ⟨(Replacement.applyTemplate d' m template).1, applied, ?_, hconfined.wellFormed, ?_, ?_⟩
  · rw [Replacement.apply_template_of_parent hp']
    exact Prod.ext rfl happlied
  · rw [Replacement.root_applyTemplate hp']
    exact h.root
  · have hmore : d.forest.Keeps d'.forest (d.Covered (m :: done)) :=
      (Forest.Keeps.refl d.forest _).trans h.keeps fun n _ hcovered => hcovered.cons m
    refine hmore.trans hconfined.keeps fun n hn hwithin => ?_
    by_cases hcovered : d.Covered done n
    · exact hcovered.cons m
    · -- outside the targets, what lies beneath this one did so from the first
      exact ⟨m, List.mem_cons_self, (h.within_iff hd hn hcovered).mp hwithin⟩

end Intact

/-! ### All replacements -/

/-- **Matches that keep clear of one another are all replaced.** -/
theorem Intact.replaceAll (hd : d.Whole) (template : Template) (matched : List Match) :
    ∀ {d' : Document} {done : List Match} (t : Tally), Intact d d' done →
      (∀ k ∈ done, k.target ≠ d.root) → (∀ m ∈ matched, ∀ k ∈ done, m.Clear d.forest k) →
      (matched.Pairwise fun k m => m.Clear d.forest k) → (∀ m ∈ matched, d.Fits m) →
      (∀ m ∈ matched, m.target ≠ d.root) →
      ∃ d'', Runner.replaceAll (.template template) d' t matched =
          (d'', .ok { t with applications := t.applications + matched.length }) ∧
        Intact d d'' (matched.reverse ++ done) := by
  induction matched with
  | nil =>
      intro d' done t h _ _ _ _ _
      exact ⟨d', rfl, h⟩
  | cons m rest ih =>
      intro d' done t h hdone hclear hpairwise hfits hne
      rw [List.pairwise_cons] at hpairwise
      rw [List.forall_mem_cons] at hclear hfits hne
      have hattached := h.stillAttached hd hdone hfits.1 hclear.1
      obtain ⟨d₁, applied, happly, h₁⟩ := h.apply hd hfits.1 hclear.1 hne.1 template
      have hclear₁ : ∀ later ∈ rest, ∀ k ∈ m :: done, later.Clear d.forest k := by
        intro later hlater k hk
        rcases List.mem_cons.mp hk with rfl | hk
        · exact hpairwise.1 later hlater
        · exact hclear.2 later hlater k hk
      obtain ⟨d₂, hrest, h₂⟩ := ih { t with applications := t.applications + 1 } h₁
        (List.forall_mem_cons.mpr ⟨hne.1, hdone⟩) hclear₁ hpairwise.2 hfits.2 hne.2
      refine ⟨d₂, ?_, ?_⟩
      · have hlength : t.applications + (m :: rest).length = t.applications + 1 + rest.length := by
          rw [List.length_cons]
          omega
        rw [Runner.replaceAll, if_pos hattached, happly, hlength]
        exact hrest
      · rwa [List.reverse_cons, List.append_assoc, List.singleton_append]

/-! ### A match whose target is the root -/

/-- It keeps clear of no other match, so there is no other. -/
theorem eq_singleton_of_target_eq_root (hd : d.Whole)
    (hpairwise : matched.Pairwise fun k m => m.Clear d.forest k)
    (hfits : ∀ m ∈ matched, d.Fits m) (hm : m ∈ matched) (hroot : m.target = d.root) :
    matched = [m] := by
  obtain ⟨before, after, rfl⟩ := List.append_of_mem hm
  rw [List.pairwise_append, List.pairwise_cons] at hpairwise
  have hbefore : before = [] := by
    refine List.eq_nil_iff_forall_not_mem.mpr fun k hk => ?_
    have hclear := hpairwise.2.2 k hk m List.mem_cons_self
    have hfit := hfits k (List.mem_append_left _ hk)
    refine ((Match.clear_iff_within hd.wellFormed).mp hclear).1 ?_
    rw [hroot]
    exact hfit.within k.target hfit.target_mem
  have hafter : after = [] := by
    refine List.eq_nil_iff_forall_not_mem.mpr fun later hlater => ?_
    have hclear := hpairwise.2.1.1 later hlater
    have hfit := hfits later (List.mem_append_right _ (List.mem_cons_of_mem _ hlater))
    refine ((Match.clear_iff_within hd.wellFormed).mp hclear).2 later.target hfit.target_mem ?_
    rw [hroot]
    exact hfit.within later.target hfit.target_mem
  rw [hbefore, hafter]
  rfl

theorem apply_root (hroot : m.target = d.root) (template : Template) :
    (Replacement.template template).apply d m = Replacement.applyTemplate d m template :=
  Replacement.apply_template (Or.inl hroot.symm) template

/-- The root is replaced by one node, or the document stays as it is. -/
theorem replaceAll_root (hd : d.Whole) (hm : d.Fits m) (hroot : m.target = d.root)
    (template : Template) :
    (∃ d', Runner.replaceAll (.template template) d {} [m] =
      (d', .ok { applications := 1, skipped := 0 })) ∨
    Runner.replaceAll (.template template) d {} [m] =
      (d, .error (.invalidRootReplacement d.root (template.rootCount m))) := by
  have hattached := (hd.stillAttached_iff hm.target_mem).mpr hm
  rw [Runner.replaceAll, if_pos hattached, apply_root hroot]
  by_cases hcount : template.rootCount m = 1
  · left
    obtain ⟨applied, happlied⟩ :=
      Replacement.applyTemplate_of_accepted (d := d) template (Or.inr hcount)
    refine ⟨(Replacement.applyTemplate d m template).1, ?_⟩
    have hpair : Replacement.applyTemplate d m template =
        ((Replacement.applyTemplate d m template).1, .ok applied) := Prod.ext rfl happlied
    rw [hpair]
    rfl
  · right
    have htop : d.forest.parent m.target = none := by
      rw [hroot]
      exact hd.parent_root
    rw [Replacement.applyTemplate_of_refused template htop hcount, hroot]

end Document

namespace Runner

variable {text : String} {settings : Settings} {p : CompiledPattern} {r : Runner} {d d' : Document}

theorem fits_of_mem_findAll (h : CompiledPattern.read text settings = .ok p) (hd : d.Whole)
    {m : Match} (hm : m ∈ p.findAll d.forest r.predicates r.settings d.root) : d.Fits m := by
  have hall := CompiledPattern.mem_allMatches_of_mem_findAll h hd.wellFormed hm
  exact ⟨CompiledPattern.target_mem_consumed hall, fun n hn =>
    CompiledPattern.within_of_mem_consumed hd.wellFormed hd.parent_root hall hn⟩

theorem run_eq_replaceAll (hpredicates : r.predicates.check p = .ok ())
    (replacement : Replacement) :
    r.run { pattern := p, replacement, mode := .once } d =
      match replaceAll replacement d {}
        (p.findAll d.forest r.predicates r.settings d.root) with
      | (d', .error e) => (d', .error (.apply e))
      | (d', .ok t) => (d', .ok (Outcome.add {} t)) := by
  rw [run, hpredicates]
  rfl

theorem run_of_replaceAll (hcheck : r.predicates.check p = .ok ()) {replacement : Replacement}
    {tally : Tally} (hall : replaceAll replacement d {}
      (p.findAll d.forest r.predicates r.settings d.root) = (d', .ok tally)) :
    r.run { pattern := p, replacement, mode := .once } d = (d', .ok (Outcome.add {} tally)) := by
  rw [run_eq_replaceAll hcheck, hall]

theorem run_of_pass_error {rule : Rule} {e : ApplyError}
    (hcheck : r.predicates.check rule.pattern = .ok ()) (hmode : rule.mode = .once)
    (h : r.pass rule d = (d', .error e)) : r.run rule d = (d', .error (.apply e)) := by
  simp only [run, hcheck, hmode, h]

/-- **A single pass never trips over itself.**  It replaces every match that was found, and no node
outside their targets is lost, moved or given another text; or the root was the target of the only
match and the template does not stand for a single node, and then nothing has changed. -/
theorem run_once (h : CompiledPattern.read text settings = .ok p) (hd : d.Whole)
    (hoverlap : r.settings.allowOverlap = false) (hpredicates : r.predicates.check p = .ok ())
    (template : Template) :
    let found := p.findAll d.forest r.predicates r.settings d.root
    match r.run { pattern := p, replacement := .template template, mode := .once } d with
    | (d', .ok outcome) =>
      outcome = { applications := found.length, passes := 1, skipped := 0 } ∧
        ∀ n ∈ d.preorder, (∀ m ∈ found, n ∉ d.forest.preorder m.target) →
          n ∈ d'.preorder ∧ d'.forest.value n = d.forest.value n ∧
            d'.forest.parent n = d.forest.parent n
    | (d', .error e) =>
      d' = d ∧ ∃ m, found = [m] ∧ m.target = d.root ∧
        e = .apply (.invalidRootReplacement d.root (template.rootCount m)) := by
  intro found
  have hpairwise : found.Pairwise fun k m => m.Clear d.forest k :=
    CompiledPattern.pairwise_findAll h hd.wellFormed hoverlap
  have hfits : ∀ m ∈ found, d.Fits m := fun m hm => fits_of_mem_findAll h hd hm
  rw [run_eq_replaceAll hpredicates]
  by_cases hroot : ∃ m ∈ found, m.target = d.root
  · obtain ⟨m, hm, hroot⟩ := hroot
    have honly : p.findAll d.forest r.predicates r.settings d.root = [m] :=
      Document.eq_singleton_of_target_eq_root hd hpairwise hfits hm hroot
    rcases Document.replaceAll_root hd (hfits m hm) hroot template with ⟨d', hreplace⟩ | hreplace
    · rw [honly, hreplace]
      refine ⟨by rw [show found = [m] from honly]; rfl, fun n hn hout => ?_⟩
      -- every node lies in the root's subtree
      refine absurd ?_ (hout m hm)
      rw [hroot]
      exact hn
    · rw [honly, hreplace]
      exact ⟨rfl, m, honly, hroot, rfl⟩
  · have hne : ∀ m ∈ found, m.target ≠ d.root := fun m hm heq => hroot ⟨m, hm, heq⟩
    obtain ⟨d', hreplace, hintact⟩ := Document.Intact.replaceAll hd template found {}
      (Document.Intact.refl hd) (fun _ hk => absurd hk List.not_mem_nil)
      (fun _ _ _ hk => absurd hk List.not_mem_nil) hpairwise hfits hne
    rw [show replaceAll (.template template) d {}
      (p.findAll d.forest r.predicates r.settings d.root) = _ from hreplace]
    rw [List.append_nil] at hintact
    refine ⟨?_, fun n hn hout => hintact.stays hd hn fun k hk => hout k (List.mem_reverse.mp hk)⟩
    rw [Outcome.add]
    simp only [Nat.zero_add]

open CompiledPattern in
theorem whole_threeAlike : threeAlike.Whole where
  wellFormed := wellFormed_threeAlike
  lt_size := by decide +kernel
  parent_root := by decide +kernel

open CompiledPattern in
/-- Of three alike siblings each is replaced once, and the node above them stays. -/
theorem run_once_threeAlike :
    ∃ d', ({} : Runner).run
        { pattern := alikeSiblings, replacement := .template ⟨[.node (.literal "b") []]⟩,
          mode := .once } threeAlike =
      (d', .ok { applications := 3, passes := 1, skipped := 0 }) ∧
      0 ∈ d'.preorder ∧ d'.forest.value 0 = threeAlike.forest.value 0 := by
  have htargets : (alikeSiblings.findAll threeAlike.forest {} {} threeAlike.root).map
      Match.target = [3, 2, 1] := targets_findAll_threeAlike
  have hlength := congrArg List.length htargets
  rw [List.length_map] at hlength
  have hrun := run_once (r := {}) read_alikeSiblings whole_threeAlike rfl rfl
    ⟨[.node (.literal "b") []]⟩
  dsimp only at hrun
  split at hrun
  · rename_i d' outcome heq
    obtain ⟨houtcome, hstays⟩ := hrun
    rw [hlength] at houtcome
    have hout : ∀ target ∈ [3, 2, 1], 0 ∉ threeAlike.forest.preorder target := by
      decide +kernel
    obtain ⟨hin, hvalue, -⟩ := hstays 0 (by decide +kernel) fun m hm =>
      hout m.target (htargets ▸ List.mem_map_of_mem hm)
    exact ⟨d', by rw [heq, houtcome]; rfl, hin, hvalue⟩
  · obtain ⟨-, m, hm, -⟩ := hrun
    rw [hm] at hlength
    exact absurd hlength (show ¬ 1 = 3 by decide)

end Runner

end TreeRules
