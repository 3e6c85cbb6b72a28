/-
One pass is one substitution.

A pass replaces its targets one after another, and each replacement edits the forest in place.  If
the template refers to nothing but the target, the outcome is as if all targets had been looked at
first and replaced at once: each by the template with the target's subtree as it was at the start.

That goes by induction along the matches.  Replacing the first one is a substitution in itself, and
it changes nothing about the others: they lie apart from it, and so does what they look like.
-/
import TreeRules.Proofs.Rule.Once
import TreeRules.Proofs.Rule.Splice

namespace TreeRules

/-! ### Templates without references to captures -/

section References

variable {m : Match} {tree tree' : NodeId → ValueTree}

mutual

theorem TemplateNode.eq_target_of_mem_uses : ∀ (t : TemplateNode), t.references = [] →
    ∀ n ∈ t.uses m, n = m.target
  | .node (.literal _) beneath, href => by
      have hbeneath : referencesOf beneath = [] := by simpa [references] using href
      rw [uses]
      exact eq_target_of_mem_usesOf beneath hbeneath
  | .node .target _, _ => by
      rw [uses]
      intro n hn
      exact List.mem_singleton.mp hn
  | .node (.capture name _) _, href => by
      rw [references] at href
      simp at href

theorem TemplateNode.eq_target_of_mem_usesOf : ∀ (ts : List TemplateNode), referencesOf ts = [] →
    ∀ n ∈ usesOf m ts, n = m.target
  | [], _ => by
      rw [usesOf]
      intro n hn
      exact absurd hn List.not_mem_nil
  | first :: others, href => by
      rw [referencesOf, List.append_eq_nil_iff] at href
      rw [usesOf, List.forall_mem_append]
      exact ⟨eq_target_of_mem_uses first href.1, eq_target_of_mem_usesOf others href.2⟩

end

mutual

theorem TemplateNode.expand_congr : ∀ (t : TemplateNode), (∀ n ∈ t.uses m, tree n = tree' n) →
    t.expand m tree = t.expand m tree'
  | .node (.literal text) beneath, h => by
      rw [uses] at h
      rw [expand, expand, expandAll_congr beneath h]
  | .node .target _, h => by
      rw [uses, List.forall_mem_singleton] at h
      rw [expand, expand, h]
  | .node (.capture name _) _, h => by
      rw [uses] at h
      rw [expand, expand]
      exact List.map_congr_left h

theorem TemplateNode.expandAll_congr : ∀ (ts : List TemplateNode),
    (∀ n ∈ usesOf m ts, tree n = tree' n) → expandAll m tree ts = expandAll m tree' ts
  | [], _ => by rw [expandAll, expandAll]
  | first :: others, h => by
      rw [usesOf, List.forall_mem_append] at h
      rw [expandAll, expandAll, expand_congr first h.1, expandAll_congr others h.2]

end

end References

namespace Document

variable {d d' : Document} {m : Match} {p : NodeId} {matched rest : List Match} {t : Template}
  {before roots after : List NodeId}

/-- What stands for a node when the targets of some matches are replaced at once: for a target, the
template's expansion. -/
def image (d : Document) (t : Template) (matched : List Match) (n : NodeId) :
    Option (List ValueTree) :=
  (matched.find? (·.target == n)).map fun m => t.expand m d.forest.tree

/-- Matches that can be replaced one after another: they keep clear of one another, and none takes
the place of the root. -/
structure Apart (d : Document) (matched : List Match) : Prop where
  whole : d.Whole
  clear : matched.Pairwise fun k m => m.Clear d.forest k
  fits : ∀ m ∈ matched, d.Fits m
  ne_root : ∀ m ∈ matched, m.target ≠ d.root

namespace Apart

theorem target_within (h : d.Apart matched) (hm : m ∈ matched) :
    d.forest.Within m.target d.root :=
  (h.fits m hm).within m.target (h.fits m hm).target_mem

theorem lt_size (h : d.Apart matched) (hm : m ∈ matched) : m.target < d.forest.size :=
  h.whole.lt_size_of_within (h.target_within hm)

/-- The first target neither lies within a later one nor encloses it. -/
theorem not_within (h : d.Apart (m :: rest)) {later : Match} (hlater : later ∈ rest) :
    ¬ d.forest.Within m.target later.target ∧ ∀ n ∈ later.consumed, ¬ d.forest.Within n m.target :=
  (Match.clear_iff_within h.whole.wellFormed).mp
    ((List.pairwise_cons.mp h.clear).1 later hlater)

end Apart

/-! ### One replacement is a substitution -/

/-- The edits are confined to the target's subtree, so the document is intact elsewhere. -/
theorem intact_of_spliced (hroot : d'.root = d.root)
    (hs : Replacement.Spliced d.forest d'.forest m p before roots after) : Intact d d' [m] where
  wellFormed := hs.confined.wellFormed
  root := hroot
  keeps := by
    refine (Forest.Keeps.refl d.forest _).trans hs.confined.keeps fun n _ hn => ?_
    exact ⟨m, List.mem_cons_self, hn⟩

/-- What stands for a node when one target has been replaced and the images of others are to be. -/
def imageWith (target : NodeId) (trees : List ValueTree)
    (image : NodeId → Option (List ValueTree)) (n : NodeId) : Option (List ValueTree) :=
  if n = target then some trees else image n

/-- **What is read of a document in which a target has been replaced** is what was read before with
the target's place taken by the trees that are there now. -/
theorem substitute_of_spliced (hf : d.forest.WellFormed)
    (hsplit : d.forest.children p = before ++ m.target :: after)
    (hs : Replacement.Spliced d.forest d'.forest m p before roots after)
    {image : NodeId → Option (List ValueTree)}
    (himage : ∀ n, (n < d.forest.size → d.forest.Within n m.target) → image n = none) (n : NodeId) :
    n < d.forest.size → ¬ d.forest.Within n m.target →
      d'.forest.substitute image n =
        d.forest.substitute (imageWith m.target (roots.map d'.forest.tree) image) n := by
  have hg := hs.confined.wellFormed
  have hp := hf.parent_of_split hsplit
  -- nothing in the trees of the roots has an image of its own
  have hroots : roots.flatMap (d'.forest.substitute image) = roots.map d'.forest.tree := by
    rw [List.map_eq_flatMap]
    refine List.flatMap_congr fun r hr => hg.substitute_of_none r fun x hx => himage x fun hlt => ?_
    by_contra hnot
    have hxr := (hs.confined.keeps.within_iff hf (fun _ _ => Forest.Within.of_parent) hlt
      hnot).mp hx
    exact hnot (hxr.trans ((hs.free r hr).within (hf.lt_size_of_within hlt hxr)))
  have htarget : d.forest.substitute (imageWith m.target (roots.map d'.forest.tree) image)
      m.target = roots.map d'.forest.tree := by
    rw [hf.substitute_eq, imageWith, if_pos rfl, Option.getD_some]
  induction n using hf.down_induction with
  | step n ih =>
      intro hlt hnot
      have hne : n ≠ m.target := by
        rintro rfl
        exact hnot (Forest.Within.refl _)
      have hbeneath : ∀ c ∈ d.forest.children n, c ≠ m.target →
          d'.forest.substitute image c =
            d.forest.substitute (imageWith m.target (roots.map d'.forest.tree) image) c := by
        intro c hc hcne
        refine ih c hc (hf.lt_size_of_child hc) fun hw => ?_
        rcases Forest.within_cases hw with heq | ⟨q, hq, hwithin⟩
        · exact hcne heq
        · obtain rfl := Option.some.inj (hq.symm.trans ((hf.parent_iff c n).mpr hc))
          exact hnot hwithin
      rw [hf.substitute_eq, hg.substitute_eq, imageWith, if_neg hne,
        hs.confined.keeps.value n hlt hnot]
      congr 3
      by_cases hnp : n = p
      · subst hnp
        have hfilter := (hf.index_of_split hsplit).2
        have hother : ∀ c ∈ before ++ after, c ∈ d.forest.children n ∧ c ≠ m.target := by
          intro c hc
          rw [← hfilter, List.mem_filter, bne_iff_ne] at hc
          exact hc
        rw [List.forall_mem_append] at hother
        rw [hs.children_self, hsplit, List.flatMap_append, List.flatMap_append, hroots,
          List.flatMap_append, List.flatMap_cons, htarget, List.append_assoc]
        congr 1
        · exact List.flatMap_congr fun c hc => hbeneath c (hother.1 c hc).1 (hother.1 c hc).2
        · congr 1
          exact List.flatMap_congr fun c hc => hbeneath c (hother.2 c hc).1 (hother.2 c hc).2
      · rw [hs.children n hlt hnp hnot]
        refine List.flatMap_congr fun c hc => hbeneath c hc ?_
        rintro rfl
        exact hnp (Option.some.inj (((hf.parent_iff _ n).mpr hc).symm.trans hp))

/-! ### The other targets -/

/-- A node that a later match consumes lies within the same nodes after the first replacement. -/
theorem Apart.within_iff (h : d.Apart (m :: rest)) (hintact : Intact d d' [m]) {later : Match}
    (hlater : later ∈ rest) {n a : NodeId} (hn : n ∈ later.consumed) :
    d'.forest.Within n a ↔ d.forest.Within n a := by
  refine hintact.within_iff h.whole ?_ ?_
  · exact h.whole.lt_size_of_within
      ((h.fits later (List.mem_cons_of_mem m hlater)).within n hn)
  · rintro ⟨k, hk, hwithin⟩
    rw [List.mem_singleton] at hk
    exact (h.not_within hlater).2 n hn (hk ▸ hwithin)

/-- The matches after the first can still be replaced one after another. -/
theorem Apart.tail (h : d.Apart (m :: rest)) (hintact : Intact d d' [m]) : d'.Apart rest where
  whole := by
    refine hintact.whole h.whole fun k hk => ?_
    rw [List.mem_singleton] at hk
    exact hk ▸ h.ne_root m List.mem_cons_self
  clear := by
    refine (List.pairwise_cons.mp h.clear).2.imp_of_mem fun {k later} hk hlater hclear => ?_
    have hmem := (h.fits k (List.mem_cons_of_mem m hk)).target_mem
    rw [Match.clear_iff_within h.whole.wellFormed] at hclear
    rw [Match.clear_iff_within hintact.wellFormed, h.within_iff hintact hk hmem]
    refine ⟨hclear.1, fun n hn => ?_⟩
    rw [h.within_iff hintact hlater hn]
    exact hclear.2 n hn
  fits := by
    intro later hlater
    have hfit := h.fits later (List.mem_cons_of_mem m hlater)
    refine ⟨hfit.target_mem, fun n hn => ?_⟩
    rw [h.within_iff hintact hlater hn, hintact.root]
    exact hfit.within n hn
  ne_root := by
    intro later hlater
    rw [hintact.root]
    exact h.ne_root later (List.mem_cons_of_mem m hlater)

/-- A later target looks as it did. -/
theorem Apart.tree_eq (h : d.Apart (m :: rest))
    (hsplit : d.forest.children p = before ++ m.target :: after)
    (hs : Replacement.Spliced d.forest d'.forest m p before roots after) {later : Match}
    (hlater : later ∈ rest) : d'.forest.tree later.target = d.forest.tree later.target := by
  have hf := h.whole.wellFormed
  have hlt := h.lt_size (List.mem_cons_of_mem m hlater)
  have hp := hf.parent_of_split hsplit
  obtain ⟨habove, hconsumed⟩ := h.not_within hlater
  have hnot : ∀ x, d.forest.Within x later.target → ¬ d.forest.Within x m.target := by
    intro x hx hxm
    rcases Forest.within_total hx hxm with hw | hw
    · exact hconsumed _ (h.fits later (List.mem_cons_of_mem m hlater)).target_mem hw
    · exact habove hw
  refine hf.tree_congr hs.confined.wellFormed _ (fun x hx => ?_) fun x hx => ?_
  · exact hs.confined.keeps.value x (Forest.lt_size_of_within hlt hx) (hnot x hx)
  · refine hs.children x (Forest.lt_size_of_within hlt hx) ?_ (hnot x hx)
    rintro rfl
    exact habove (Forest.Within.of_parent hp hx)

theorem image_cons (d : Document) (t : Template) (m : Match) (rest : List Match) (n : NodeId) :
    d.image t (m :: rest) n = imageWith m.target (t.expand m d.forest.tree) (d.image t rest) n := by
  unfold image imageWith
  by_cases hn : n = m.target
  · simp [hn]
  · have hne : (m.target == n) = false := by simpa using Ne.symm hn
    rw [List.find?_cons, hne, if_neg hn]

/-- The images of later targets are what they were. -/
theorem Apart.image_eq (h : d.Apart (m :: rest)) (href : t.references = [])
    (hsplit : d.forest.children p = before ++ m.target :: after)
    (hs : Replacement.Spliced d.forest d'.forest m p before roots after) (n : NodeId) :
    d'.image t rest n = d.image t rest n := by
  unfold image
  cases hfind : rest.find? (·.target == n) with
  | none => rfl
  | some later =>
      have htree := h.tree_eq hsplit hs (List.mem_of_find?_eq_some hfind)
      rw [Option.map_some, Option.map_some]
      congr 1
      refine TemplateNode.expandAll_congr t.roots fun x hx => ?_
      rw [TemplateNode.eq_target_of_mem_usesOf t.roots href x hx, htree]

/-- A later target is a node of before that lies apart from the first. -/
theorem Apart.image_eq_none (h : d.Apart (m :: rest)) {n : NodeId}
    (hn : n < d.forest.size → d.forest.Within n m.target) : d'.image t rest n = none := by
  unfold image
  rw [Option.map_eq_none_iff, List.find?_eq_none]
  intro later hlater heq
  rw [beq_iff_eq] at heq
  subst heq
  have hfit := h.fits later (List.mem_cons_of_mem m hlater)
  exact (h.not_within hlater).2 _ hfit.target_mem
    (hn (h.lt_size (List.mem_cons_of_mem m hlater)))

/-- **To substitute for all targets is to replace the first and to substitute for the others.** -/
theorem Apart.substitute_image_cons (h : d.Apart (m :: rest)) (href : t.references = [])
    (hroot : d'.root = d.root) (hsplit : d.forest.children p = before ++ m.target :: after)
    (hs : Replacement.Spliced d.forest d'.forest m p before roots after)
    (htrees : roots.map d'.forest.tree = t.expand m d.forest.tree) :
    d.forest.substitute (d.image t (m :: rest)) d.root =
      d'.forest.substitute (d'.image t rest) d'.root := by
  have hout : ¬ d.forest.Within d.root m.target := by
    intro hw
    exact h.ne_root m List.mem_cons_self
      (Forest.eq_of_within_of_parent_none h.whole.parent_root hw).symm
  have himage : d.image t (m :: rest) =
      imageWith m.target (roots.map d'.forest.tree) (d'.image t rest) := by
    funext n
    rw [image_cons, imageWith, imageWith, htrees, h.image_eq href hsplit hs]
  rw [himage, hroot]
  exact (substitute_of_spliced h.whole.wellFormed hsplit hs (fun n hn => h.image_eq_none hn) d.root
    h.whole.lt_size hout).symm

/-! ### All replacements -/

/-- The target is all that such a template uses, so nothing that it uses is in the way. -/
theorem ready_of_references_eq_nil (hf : d.forest.WellFormed) (ht : m.target < d.forest.size)
    (href : t.references = []) :
    Instance.Ready m (· ∈ t.uses m) d.forest.tree (d.forest.detach m.target) where
  lt_size := by
    intro n hn
    rw [TemplateNode.eq_target_of_mem_usesOf t.roots href n hn, Forest.size_detach]
    exact ht
  tree := by
    intro n hn
    rw [TemplateNode.eq_target_of_mem_usesOf t.roots href n hn]
    have hvalue : ∀ x, d.forest.Within x m.target →
        (d.forest.detach m.target).value x = d.forest.value x :=
      fun x _ => Forest.value_detach _ _ x
    refine hf.tree_congr (hf.detach m.target) _ hvalue fun x hx => ?_
    rw [Forest.children_detach hf, Forest.filter_ne_of_not_mem fun hmem => ?_]
    exact hf.acyclic _ (Relation.TransGen.head' ((hf.parent_iff _ x).mpr hmem) hx)
  apart := by
    intro x y hx hy hne _ _
    rw [TemplateNode.eq_target_of_mem_usesOf t.roots href x hx,
      TemplateNode.eq_target_of_mem_usesOf t.roots href y hy] at hne
    exact hne rfl

/-- **One replacement after another comes to one substitution.** -/
theorem Apart.substitute_eq_tree_replaceAll (href : t.references = []) (matched : List Match) :
    ∀ {d : Document} (tally : Tally), d.Apart matched →
      ∃ d', Runner.replaceAll (.template t) d tally matched =
          (d', .ok { tally with applications := tally.applications + matched.length }) ∧
        d.forest.substitute (d.image t matched) d.root = [d'.tree] := by
  induction matched with
  | nil =>
      intro d tally h
      exact ⟨d, rfl, Forest.substitute_none d.forest d.root⟩
  | cons m rest ih =>
      intro d tally h
      have hf := h.whole.wellFormed
      have hfit := h.fits m List.mem_cons_self
      have hin := h.target_within List.mem_cons_self
      obtain ⟨p, hp⟩ := exists_parent_of_ne_root hin (h.ne_root m List.mem_cons_self)
      obtain ⟨before, after, hsplit⟩ := List.append_of_mem ((hf.parent_iff m.target p).mp hp)
      obtain ⟨d₁, roots, happly, hroot, hs, htrees⟩ :=
        Replacement.spliced_applyTemplate hf hsplit t
      have hexpand := htrees _ (ready_of_references_eq_nil hf (Forest.lt_size_of_parent hp) href)
      have hattached := (h.whole.stillAttached_iff hfit.target_mem).mpr hfit
      obtain ⟨d₂, hrest, htree⟩ := ih { tally with applications := tally.applications + 1 }
        (h.tail (intact_of_spliced hroot hs))
      refine ⟨d₂, ?_, ?_⟩
      · have hlength : tally.applications + (m :: rest).length =
            tally.applications + 1 + rest.length := by
          rw [List.length_cons]
          omega
        rw [Runner.replaceAll, if_pos hattached, Replacement.apply_template_of_parent hp, hlength,
          happly]
        exact hrest
      · rw [h.substitute_image_cons href hroot hsplit hs hexpand, htree]

/-- Where the root is replaced, the whole document is. -/
theorem substitute_eq_tree_replaceAll_root (hd : d.Whole) (hm : d.Fits m)
    (hroot : m.target = d.root) (href : t.references = []) {tally : Tally}
    (hrun : Runner.replaceAll (.template t) d {} [m] = (d', .ok tally)) :
    d.forest.substitute (d.image t [m]) d.root = [d'.tree] := by
  have hattached := (hd.stillAttached_iff hm.target_mem).mpr hm
  have htop : d.forest.parent m.target = none := by
    rw [hroot]
    exact hd.parent_root
  have ht : m.target < d.forest.size := by
    rw [hroot]
    exact hd.lt_size
  rw [Runner.replaceAll, if_pos hattached, apply_root hroot] at hrun
  by_cases hcount : t.rootCount m = 1
  · obtain ⟨d₁, root, happly, hroot₁, -, -, -, htrees⟩ :=
      Replacement.applyTemplate_of_top hd.wellFormed ht htop hcount
    rw [happly] at hrun
    obtain ⟨rfl, -⟩ := Prod.mk.inj hrun
    have hready := ready_of_references_eq_nil (t := t) hd.wellFormed ht href
    rw [Forest.detach_of_parent_none htop] at hready
    rw [hd.wellFormed.substitute_eq, image_cons, imageWith, if_pos hroot.symm, Option.getD_some,
      ← htrees _ hready, tree, hroot₁]
  · rw [Replacement.applyTemplate_of_refused t htop hcount] at hrun
    exact absurd (Prod.mk.inj hrun).2 (by simp)

end Document

namespace Runner

open Document

variable {text : String} {settings : Settings} {p : CompiledPattern} {r : Runner}
  {d d' : Document} {t : Template}

theorem check_of_run (replacement : Replacement) (mode : Mode) {outcome : Outcome}
    (hrun : r.run { pattern := p, replacement, mode } d = (d', .ok outcome)) :
    r.predicates.check p = .ok () := by
  cases hcheck : r.predicates.check p with
  | ok _ => rfl
  | error e =>
      rw [run, hcheck] at hrun
      exact absurd (Prod.mk.inj hrun).2 (by simp)

/-- **One pass is one substitution.**  When a rule whose template holds only literals and the target
has been run once, the document looks as it did at the start with the subtree of every target found
replaced at once by the template, in which the target's subtree stands as it was at the start. -/
theorem substitute_of_run_once (h : CompiledPattern.read text settings = .ok p) (hd : d.Whole)
    (hoverlap : r.settings.allowOverlap = false) (href : t.references = []) {outcome : Outcome}
    (hrun : r.run { pattern := p, replacement := .template t, mode := .once } d =
      (d', .ok outcome)) :
    d.forest.substitute
      (d.image t (p.findAll d.forest r.predicates r.settings d.root)) d.root = [d'.tree] := by
  have hpairwise : (p.findAll d.forest r.predicates r.settings d.root).Pairwise fun k m =>
      m.Clear d.forest k := CompiledPattern.pairwise_findAll h hd.wellFormed hoverlap
  have hfits : ∀ m ∈ p.findAll d.forest r.predicates r.settings d.root, d.Fits m :=
    fun m hm => fits_of_mem_findAll h hd hm
  rw [run_eq_replaceAll (check_of_run _ _ hrun)] at hrun
  by_cases hroot : ∃ m ∈ p.findAll d.forest r.predicates r.settings d.root, m.target = d.root
  · obtain ⟨m, hm, hroot⟩ := hroot
    have honly := eq_singleton_of_target_eq_root hd hpairwise hfits hm hroot
    rw [honly] at hrun ⊢
    cases hall : replaceAll (.template t) d {} [m] with
    | mk d₁ answer =>
        rw [hall] at hrun
        cases answer with
        | error e => exact absurd (Prod.mk.inj hrun).2 (by simp)
        | ok tally =>
            obtain ⟨rfl, -⟩ := Prod.mk.inj hrun
            exact substitute_eq_tree_replaceAll_root hd (hfits m hm) hroot href hall
  · have hapart : d.Apart (p.findAll d.forest r.predicates r.settings d.root) :=
      ⟨hd, hpairwise, hfits, fun m hm heq => hroot ⟨m, hm, heq⟩⟩
    obtain ⟨d₁, hall, htree⟩ := Apart.substitute_eq_tree_replaceAll href _ {} hapart
    rw [hall] at hrun
    obtain ⟨rfl, -⟩ := Prod.mk.inj hrun
    exact htree

/-- A node that holds the target twice. -/
def wrapTwice : Template :=
  ⟨[.node (.literal "x") [.node .target [], .node .target []]]⟩

open CompiledPattern in
/-- Each of three alike siblings is moved and cloned at once. -/
theorem substitute_of_run_once_threeAlike :
    ∃ d' outcome, ({} : Runner).run
        { pattern := alikeSiblings, replacement := .template wrapTwice, mode := .once } threeAlike =
      (d', .ok outcome) ∧
      d'.tree.outline = [(0, "r"), (1, "x"), (2, "a"), (2, "a"), (1, "x"), (2, "a"), (2, "a"),
        (1, "x"), (2, "a"), (2, "a")] := by
  have hpairwise : (alikeSiblings.findAll threeAlike.forest {} {} threeAlike.root).Pairwise
      fun k m => m.Clear threeAlike.forest k :=
    pairwise_findAll read_alikeSiblings wellFormed_threeAlike rfl
  have hfits := fun m hm => fits_of_mem_findAll (r := {}) (m := m) read_alikeSiblings
    whole_threeAlike hm
  have hne : ∀ m ∈ alikeSiblings.findAll threeAlike.forest {} {} threeAlike.root,
      m.target ≠ threeAlike.root := by
    rw [findAll_threeAlike]
    decide +kernel
  obtain ⟨d', hall, -⟩ := Apart.substitute_eq_tree_replaceAll (t := wrapTwice) rfl _ {}
    ⟨whole_threeAlike, hpairwise, hfits, hne⟩
  have hrun := run_of_replaceAll (r := {}) (p := alikeSiblings) rfl hall
  have htree := substitute_of_run_once read_alikeSiblings whole_threeAlike rfl rfl hrun
  rw [show alikeSiblings.findAll threeAlike.forest ({} : Runner).predicates
    ({} : Runner).settings threeAlike.root = _ from findAll_threeAlike] at htree
  refine ⟨d', _, hrun, List.singleton_inj.mp ?_⟩
  rw [← List.map_singleton, ← htree]
  decide +kernel

end Runner

end TreeRules
