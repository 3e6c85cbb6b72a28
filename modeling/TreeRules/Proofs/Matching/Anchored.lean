/-
Trying for a match at one node, and scanning a subtree for it.

To try at a node is to ask a machine once, and to count the node itself as the place where the search
started.  A scan has machines start at one node after another, counts its own root as that place,
and keeps to its limits.  They come to the same all the same:

  * What a machine answers first is the first match of the pattern at the node.
  * A match starts with the node from which it is tried for, so the scan has no other match that
    starts there.
  * Only a slash in front of a pattern asks where the search started.  Without it the matches at a
    node are the same whatever is scanned, and with it there are none but at the root of the scan.
-/
import TreeRules.Proofs.Matching.Mirrored

namespace TreeRules

namespace Scene

variable {s : Scene} {declared : List String} {w w' : Way} {p : Pattern}

/-! ### Where a match starts -/

/-- A way whose first node, if it has one, is the start. -/
structure Begun (s : Scene) (w : Way) : Prop where
  here_iff : w.here = none ↔ w.log = []
  first : ∀ c, w.log.getLast? = some c → c.node = s.start

theorem begun_empty (s : Scene) : s.Begun {} where
  here_iff := ⟨fun _ => rfl, fun _ => rfl⟩
  first := by
    intro c hc
    cases hc

/-- The first node to be consumed is the start, and no other one becomes the first later on. -/
theorem Begun.consume {test : NodeTest} {axis : Axis} {n : NodeId} (hw : s.Begun w)
    (hn : n ∈ s.choices axis test w) (names : List String) : s.Begun (w.consume n names) where
  here_iff := ⟨fun h => absurd h (Option.some_ne_none n), fun h => absurd h (List.cons_ne_nil _ _)⟩
  first := by
    intro c hc
    cases hlog : w.log with
    | nil =>
        have hnear := (mem_choices hn).1
        rw [nearby, hw.here_iff.mpr hlog, List.mem_singleton] at hnear
        rw [Way.consume, hlog, List.getLast?_singleton] at hc
        rw [← Option.some.inj hc]
        exact hnear
    | cons first rest =>
        rw [Way.consume, hlog, List.getLast?_cons_cons, ← hlog] at hc
        exact hw.first c hc

theorem Leads.begun (h : s.Leads declared w w') (hw : s.Begun w) : s.Begun w' := by
  induction h with
  | refl => exact hw
  | consume hn _ _ ih => exact ih (hw.consume hn _)
  | climb hn _ _ ih =>
      refine ih ⟨⟨fun h => absurd h (Option.some_ne_none _), fun h => ?_⟩, hw.first⟩
      have hnone := hw.here_iff.mpr h
      rw [hn] at hnone
      cases hnone

/-- **A match starts with the node from which it is tried for.** -/
theorem start_of_mem_matches {m : Match} (hm : m ∈ s.matches p) : m.start = s.start := by
  obtain ⟨log, hlog, hread⟩ := List.mem_filterMap.mp hm
  obtain ⟨w, hleads, rfl⟩ := leads_of_mem_results hlog
  obtain ⟨first, _, hfirst, -, rfl⟩ := Match.exists_of_ofLog? hread
  rw [List.head?_reverse] at hfirst
  exact (hleads.begun (begun_empty s)).first first hfirst

end Scene

/-- Where a function gives something for one element of a list at most, it gives that. -/
theorem findSome?_eq_of_unique {α β : Type} {f : α → Option β} {l : List α} {a : α} (ha : a ∈ l)
    (h : ∀ b, b ≠ a → f b = none) : l.findSome? f = f a := by
  cases hfound : l.findSome? f with
  | none => exact (List.findSome?_eq_none_iff.mp hfound a ha).symm
  | some x =>
      obtain ⟨b, -, hb⟩ := List.exists_of_findSome?_eq_some hfound
      by_cases hba : b = a
      · rw [← hba, hb]
      · rw [h b hba] at hb
        cases hb

namespace CompiledPattern

variable {text : String} {settings limits : Settings} {p : CompiledPattern} {f : Forest}
  {predicates : Predicates} {r n : NodeId}

/-! ### At one node -/

/-- **Trying at a node gives the first match there.** -/
theorem matchAt_eq_head? (h : read text settings = .ok p) (hf : f.WellFormed)
    (predicates : Predicates) (n : NodeId) :
    p.matchAt f predicates n = (p.matchesAt f predicates n n).head? := by
  obtain ⟨solutions, hsolutions, hmap⟩ := answers_query h hf predicates {} n n
  show ((Search.nextSolution _ Search.initial).bind fun answer =>
    answer.bind fun found => Match.ofVisits? p.program found.1) = _
  cases hsolutions with
  | exhausted hrun =>
      rw [List.map_nil] at hmap
      rw [List.map_eq_nil_iff.mp hmap.symm]
      exact congrArg (Option.bind · _) hrun
  | found hrun hrest =>
      rw [List.map_cons] at hmap
      cases hmatches : p.matchesAt f predicates n n with
      | nil =>
          rw [hmatches] at hmap
          cases hmap
      | cons m rest =>
          rw [hmatches, List.map_cons, List.cons.injEq] at hmap
          exact (congrArg (Option.bind · _) hrun).trans hmap.1

/-- Without a slash in front it makes no difference where the search started. -/
theorem matchesAt_scanRoot (h : read text settings = .ok p)
    (hkeeps : p.pattern.keepsTo .anywhere = true) (hf : f.WellFormed) (r r' : NodeId) :
    p.matchesAt f predicates r n = p.matchesAt f predicates r' n := by
  have hscene : Scene.Mirrors ⟨f, predicates, r, n⟩ ⟨f, predicates, r', n⟩ .anywhere Eq :=
    Scene.mirrors_of_nodes_eq hf rfl fun hanchored => absurd hanchored Bool.false_ne_true
  exact Match.eq_of_forall₂_mirrors (hscene.matches (of_read h).1 hkeeps rfl)

/-- With it there is no match but where the search started. -/
theorem matchesAt_of_isRooted (h : read text settings = .ok p) (hrooted : p.program.isRooted = true)
    (hf : f.WellFormed) (hn : n ≠ r) : p.matchesAt f predicates r n = [] :=
  Query.answer_of_isRooted (answers_query h hf predicates {} r) hrooted hn

/-! ### At all nodes of a subtree -/

/-- If it may report a match at all, a scan reports the very first one. -/
theorem findFirst_eq_head? (h : read text settings = .ok p) (hf : f.WellFormed)
    (hlimits : 1 ≤ limits.maxMatches) :
    p.findFirst f predicates limits r = (p.allMatches f predicates r).head? := by
  rw [findFirst, LazyList.head?_eq]
  show (p.findAll f predicates limits r).head? = _
  rw [findAll_eq_take h hf, List.head?_take, if_neg (by omega)]
  unfold Query.chosen
  split
  · rfl
  · cases p.allMatches f predicates r with
    | nil => rfl
    | cons m rest =>
        rw [Match.keepClear, if_pos fun k hk => absurd hk List.not_mem_nil]
        rfl

/-- Where overlaps are allowed and the limit is not reached, a scan reports all matches. -/
theorem findAll_eq_allMatches (h : read text settings = .ok p) (hf : f.WellFormed)
    (hallow : limits.allowOverlap = true)
    (hlength : (p.findAll f predicates limits r).length < limits.maxMatches) :
    p.findAll f predicates limits r = p.allMatches f predicates r := by
  have htake : p.findAll f predicates limits r =
      (p.allMatches f predicates r).take limits.maxMatches := by
    rw [findAll_eq_take h hf]
    exact congrArg (List.take _) (if_pos hallow)
  rw [htake, List.length_take] at hlength
  rw [htake, List.take_of_length_le (by omega)]

theorem head?_allMatches :
    (p.allMatches f predicates r).head? =
      (f.preorder r).findSome? fun n => (p.matchesAt f predicates r n).head? := by
  rw [allMatches, List.head?_flatMap]

/-- Of all matches of a subtree those that start at a node are the ones that are tried for there. -/
theorem find?_allMatches (hn : n ∈ f.preorder r) :
    (p.allMatches f predicates r).find? (·.start == n) = (p.matchesAt f predicates r n).head? := by
  have hstart : ∀ x, ∀ m ∈ p.matchesAt f predicates r x, m.start = x :=
    fun x m hm => Scene.start_of_mem_matches hm
  have hother : ∀ x, x ≠ n → (p.matchesAt f predicates r x).find? (·.start == n) = none := by
    intro x hx
    rw [List.find?_eq_none]
    intro m hm
    rw [hstart x m hm, beq_iff_eq]
    exact hx
  rw [allMatches, List.find?_flatMap, findSome?_eq_of_unique hn hother]
  cases hmatches : p.matchesAt f predicates r n with
  | nil => rfl
  | cons m rest =>
      have hm : m.start = n := hstart n m (by rw [hmatches]; exact List.mem_cons_self)
      rw [List.find?_cons_of_pos (by rw [hm]; exact beq_self_eq_true n), List.head?_cons]

/-- **Trying at single nodes and scanning agree.**  Without a slash in front of the pattern, the first
match of a scan that may report one is the match at the first node, in document order, at which there
is one when it is tried for, and there is none if there is no such node.  Where overlaps are allowed
and the limit is not reached, the first match that the scan reports at a node is the one that is
found there when it is tried for, for each node of the subtree.  With a slash in front the first
match of a scan is the match at its root. -/
theorem findFirst_eq_findSome? (h : read text settings = .ok p) (hf : f.WellFormed)
    (predicates : Predicates) (hlimits : 1 ≤ limits.maxMatches) (r : NodeId) :
    (¬ LeadingSlash text →
      p.findFirst f predicates limits r = (f.preorder r).findSome? (p.matchAt f predicates) ∧
      (limits.allowOverlap = true → (p.findAll f predicates limits r).length < limits.maxMatches →
        ∀ n ∈ f.preorder r,
          (p.findAll f predicates limits r).find? (·.start == n) = p.matchAt f predicates n)) ∧
    (LeadingSlash text → p.findFirst f predicates limits r = p.matchAt f predicates r) := by
  rw [findFirst_eq_head? h hf hlimits]
  refine ⟨fun hlead => ?_, fun hlead => ?_⟩
  · have hkeeps := keepsTo_anywhere_of_read h hlead
    have hmatchAt : ∀ n, (p.matchesAt f predicates r n).head? = p.matchAt f predicates n := by
      intro n
      rw [matchAt_eq_head? h hf, matchesAt_scanRoot h hkeeps hf r n]
    refine ⟨?_, fun hallow hlength n hn => ?_⟩
    · rw [head?_allMatches]
      simp only [hmatchAt]
    · rw [findAll_eq_allMatches h hf hallow hlength, find?_allMatches hn, hmatchAt]
  · have hrooted := isRooted_of_read h hlead
    have hroot : r ∈ f.preorder r := hf.mem_preorder_iff.mpr (.refl r)
    rw [head?_allMatches, matchAt_eq_head? h hf, findSome?_eq_of_unique hroot]
    intro n hn
    rw [matchesAt_of_isRooted h hrooted hf hn, List.head?_nil]

/-- From each of three alike siblings the same is found whether it is tried for there or scanned for
from above, although the scan is resumed at one node after another. -/
theorem findFirst_eq_findSome?_threeAlike :
    alikeSiblings.findFirst threeAlike.forest {} {} 0 =
        (threeAlike.forest.preorder 0).findSome? (alikeSiblings.matchAt threeAlike.forest {}) ∧
      (alikeSiblings.findAll threeAlike.forest {} { allowOverlap := true } 0).find?
          (·.start == 2) = alikeSiblings.matchAt threeAlike.forest {} 2 := by
  have htokens : Token.readAll "x:a &$x*" = .ok [⟨.word "x", 0⟩, ⟨.colon, 1⟩, ⟨.word "a", 2⟩,
      ⟨.ampersand, 4⟩, ⟨.reference "x", 5⟩, ⟨.star, 7⟩] := by cbv
  have hlead : ¬ LeadingSlash "x:a &$x*" := by
    rintro ⟨position, rest, hslash⟩
    rw [htokens] at hslash
    cases hslash
  have hlength : (alikeSiblings.findAll threeAlike.forest {} { allowOverlap := true } 0).length <
      10000 := by
    rw [findAll_eq_take read_alikeSiblings wellFormed_threeAlike]
    decide +kernel
  have hmem : 2 ∈ threeAlike.forest.preorder 0 := by decide +kernel
  exact ⟨((findFirst_eq_findSome? read_alikeSiblings wellFormed_threeAlike {} (by decide) 0).1
      hlead).1,
    ((findFirst_eq_findSome? read_alikeSiblings wellFormed_threeAlike {} (by decide) 0).1
      hlead).2 rfl hlength 2 hmem⟩

end CompiledPattern

end TreeRules
