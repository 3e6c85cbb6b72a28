/-
What a rule does is not decided by where its parts stand in the text that it was read from.

A compiled pattern remembers its text, and the positions at which it asks for a predicate and at
which its template refers to a capture.  They are there for messages: a search looks at the program
alone, and an instance is built from the names that a template refers to.  So a rule and the rule
without its text and positions do the same to every document.  The one place where a position is
told at a run is the refusal of an unknown predicate, which comes before the document is looked at.

Rules that are read from the same tokens at different positions differ in nothing else.
-/
import TreeRules.Proofs.Pattern.Relocate
import TreeRules.Rule.Run

namespace TreeRules

open TreeRules.Text

namespace Instance

variable (m : Match)

mutual

theorem node_unplaced : ∀ (n : TemplateNode) (b : Instance),
    node m b (n.mapHeads TemplateHead.unplaced) = node m b n
  | .node (.literal text) beneath, b => by
      rw [TemplateNode.mapHeads, TemplateHead.unplaced, node, node]
      · dsimp only
        rw [nodes_unplaced beneath]
      · rintro name position heq
        cases heq
  | .node .target beneath, b => by
      rw [TemplateNode.mapHeads, TemplateHead.unplaced, node, node]
      rintro name position heq
      cases heq
  | .node (.capture name position) beneath, b => by
      rw [TemplateNode.mapHeads, TemplateHead.unplaced, node, node]

theorem nodes_unplaced : ∀ (ns : List TemplateNode) (b : Instance),
    nodes m b (TemplateNode.mapHeadsOf TemplateHead.unplaced ns) = nodes m b ns
  | [], b => by rw [TemplateNode.mapHeadsOf]
  | first :: others, b => by
      rw [TemplateNode.mapHeadsOf, nodes, nodes, node_unplaced first]
      dsimp only
      rw [nodes_unplaced others]

end

end Instance

namespace Template

theorem instantiate_unplaced (t : Template) (f : Forest) (m : Match) :
    t.unplaced.instantiate f m = t.instantiate f m :=
  Instance.nodes_unplaced m t.roots { forest := f }

theorem rootCount_unplaced (t : Template) (m : Match) : t.unplaced.rootCount m = t.rootCount m := by
  obtain ⟨roots⟩ := t
  unfold rootCount unplaced mapHeads
  dsimp only
  induction roots with
  | nil => rfl
  | cons root roots ih =>
      obtain ⟨head, beneath⟩ := root
      rw [TemplateNode.mapHeadsOf, List.foldr_cons, List.foldr_cons, ih, TemplateNode.mapHeads]
      cases head <;> rfl

end Template

/-- A name that is asked for, without the position where it is. -/
def CompiledPattern.asked (reference : String × Nat) : String × Nat := (reference.1, 0)

/-- The pattern without the text that it was read from and the positions in it. -/
def CompiledPattern.unplaced (p : CompiledPattern) : CompiledPattern :=
  { p with
    source := ""
    template := p.template.map Template.unplaced
    predicates := p.predicates.map asked }

/-- The replacement without the positions of its template. -/
def Replacement.unplaced : Replacement → Replacement
  | template t => .template t.unplaced
  | callback build => .callback build

/-- The rule without the text that it was read from and the positions in it. -/
def Rule.unplaced (rule : Rule) : Rule :=
  { rule with pattern := rule.pattern.unplaced, replacement := rule.replacement.unplaced }

theorem Replacement.apply_unplaced (replacement : Replacement) (d : Document) (m : Match) :
    replacement.unplaced.apply d m = replacement.apply d m := by
  cases replacement with
  | template t =>
      simp only [unplaced, apply, applyTemplate, t.instantiate_unplaced, t.rootCount_unplaced]
  | callback build => rfl

namespace Predicates

theorem check_eq_ok {predicates : Predicates} {p : CompiledPattern} :
    predicates.check p = .ok () ↔
      ∀ reference ∈ p.predicates, (predicates.get? reference.1).isNone = false := by
  unfold check
  split
  · rename_i hnone
    refine iff_of_true rfl fun reference hmem => ?_
    exact Bool.eq_false_of_not_eq_true (List.find?_eq_none.mp hnone reference hmem)
  · rename_i name position hsome
    have hmem := List.mem_of_find?_eq_some hsome
    have hunknown := List.find?_some hsome
    refine ⟨fun h => absurd h (by simp), fun h => ?_⟩
    exact absurd ((h _ hmem).symm.trans hunknown) Bool.false_ne_true

/-- Whether the predicates are known does not depend on where they are asked for. -/
theorem check_unplaced (predicates : Predicates) (p : CompiledPattern) :
    predicates.check p.unplaced = .ok () ↔ predicates.check p = .ok () := by
  rw [check_eq_ok, check_eq_ok]
  exact List.forall_mem_map

end Predicates

namespace Runner

theorem replaceAll_unplaced (replacement : Replacement) (ms : List Match) :
    ∀ (d : Document) (t : Tally),
      replaceAll replacement.unplaced d t ms = replaceAll replacement d t ms := by
  induction ms with
  | nil => exact fun d t => rfl
  | cons m ms ih =>
      intro d t
      simp only [replaceAll, replacement.apply_unplaced, ih]

theorem pass_unplaced (r : Runner) (rule : Rule) (d : Document) :
    r.pass rule.unplaced d = r.pass rule d :=
  replaceAll_unplaced rule.replacement _ d {}

theorem repeatPasses_unplaced (r : Runner) (rule : Rule) (left : Nat) :
    ∀ (d : Document) (o : Outcome),
      r.repeatPasses rule.unplaced d o left = r.repeatPasses rule d o left := by
  induction left with
  | zero => exact fun d o => rfl
  | succ left ih =>
      intro d o
      simp only [repeatPasses, pass_unplaced, ih]

/-- **A rule does the same without its text and positions**, if it asks for known predicates only;
if it does not, it is refused either way. -/
theorem run_unplaced (r : Runner) (rule : Rule) (d : Document) :
    (r.predicates.check rule.unplaced.pattern = .ok () ↔
        r.predicates.check rule.pattern = .ok ()) ∧
      (r.predicates.check rule.pattern = .ok () → r.run rule.unplaced d = r.run rule d) := by
  have hcheck := r.predicates.check_unplaced rule.pattern
  refine ⟨hcheck, fun h => ?_⟩
  have h' : r.predicates.check rule.unplaced.pattern = .ok () := hcheck.mpr h
  unfold run
  rw [h, h']
  dsimp only
  rw [pass_unplaced, repeatPasses_unplaced]
  rfl

end Runner

/-! ### Rules read from the same tokens -/

theorem Token.predicateReferences_relocate (place : Nat → Nat) (tokens : List (Placed Token)) :
    (predicateReferences (tokens.map (·.relocate place))).map CompiledPattern.asked =
      (predicateReferences tokens).map CompiledPattern.asked := by
  unfold predicateReferences
  rw [List.filterMap_map, List.map_filterMap, List.map_filterMap]
  refine List.filterMap_congr fun token _ => ?_
  obtain ⟨value, position⟩ := token
  cases value <;> rfl

variable {text text' : String} {tokens : List (Placed Token)} {place back : Nat → Nat}

theorem CompiledPattern.toOption_read (settings : Settings) (h : Token.readAll text = .ok tokens) :
    (read text settings).toOption.map unplaced =
      ((readTokens ⟨byteWidth text.toList, settings.maxBound⟩ tokens).toOption.map
        unplacedAnswer).map fun answer =>
          { ofTokens "" [] answer with
            predicates := (Token.predicateReferences tokens).map asked } := by
  rw [read_eq, h]
  show ((readTokens _ tokens).map (ofTokens text tokens)).toOption.map unplaced = _
  cases readTokens ⟨byteWidth text.toList, settings.maxBound⟩ tokens <;> rfl

/-- **What is compiled from the same tokens at other positions** is the same but for these. -/
theorem CompiledPattern.read_relocate (settings : Settings) (h : Token.readAll text = .ok tokens)
    (h' : Token.readAll text' = .ok (tokens.map (·.relocate place)))
    (hback : ∀ token ∈ tokens, back (place token.position) = token.position) :
    (read text' settings).toOption.map unplaced = (read text settings).toOption.map unplaced := by
  have htokens :
      (readTokens ⟨byteWidth text'.toList, settings.maxBound⟩
        (tokens.map (·.relocate place))).toOption.map unplacedAnswer =
      (readTokens ⟨byteWidth text.toList, settings.maxBound⟩ tokens).toOption.map unplacedAnswer :=
    readTokens_relocate_eq hback rfl
  rw [toOption_read settings h, toOption_read settings h', htokens,
    Token.predicateReferences_relocate]

/-- The rule that a pattern with a template is. -/
def Rule.ofPattern? (mode : Mode) (pattern : CompiledPattern) : Option Rule :=
  pattern.template.map fun t => { pattern, replacement := .template t, mode }

theorem Rule.toOption_read (text : String) (mode : Mode) (settings : Settings) :
    (read text mode settings).toOption.map unplaced =
      ((CompiledPattern.read text settings).toOption.map CompiledPattern.unplaced).bind
        (ofPattern? mode) := by
  unfold read
  cases CompiledPattern.read text settings with
  | error e => rfl
  | ok pattern =>
      obtain ⟨source, ast, program, template, predicates⟩ := pattern
      cases template <;> rfl

/-- **A rule that is read from the same tokens at other positions** is the same but for these. -/
theorem Rule.read_relocate (mode : Mode) (settings : Settings)
    (h : Token.readAll text = .ok tokens)
    (h' : Token.readAll text' = .ok (tokens.map (·.relocate place)))
    (hback : ∀ token ∈ tokens, back (place token.position) = token.position) :
    (read text' mode settings).toOption.map unplaced =
      (read text mode settings).toOption.map unplaced := by
  rw [toOption_read, toOption_read, CompiledPattern.read_relocate settings h h' hback]

end TreeRules
