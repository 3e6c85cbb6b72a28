/-
A pattern becomes a rule by an arrow and a template behind it.

A pattern that has been read without a template is cut into the same tokens with an arrow behind it,
if a blank stands between them, and the derivation of the pattern is carried on by the template.
The rule that is read has the pattern's program and asks for the same predicates, so it finds what
the pattern finds.  That is shown for two templates: the one that is empty, and the one that refers
to the target.
-/
import TreeRules.Proofs.Rule.Arrow
import TreeRules.Proofs.Rule.Cycle

namespace TreeRules

open TreeRules.Text Grammar

namespace Template

/-- The template that stands for nothing. -/
def nothing : Template := ⟨[]⟩

/-- The template that stands for the target alone. -/
def target : Template := ⟨[.node .target []]⟩

end Template

namespace Rule

variable {text : String} {settings : Settings} {p : CompiledPattern} {rule : Rule} {t : Template}
  {mode : Mode} {r : Runner} {d d' : Document}

/-- The rule has been read, finds what the pattern finds, and replaces it by the template. -/
structure Completes (rule : Rule) (p : CompiledPattern) (t : Template) (mode : Mode) : Prop where
  read : ∃ text settings, CompiledPattern.read text settings = .ok rule.pattern
  program : rule.pattern.program = p.program
  predicates : rule.pattern.predicates = p.predicates
  replacement : rule.replacement = .template t
  mode : rule.mode = mode

namespace Completes

theorem templated (h : rule.Completes p t mode) : rule.Templated := ⟨h.read, t, h.replacement⟩

theorem found_eq (h : rule.Completes p t mode) (r : Runner) (d : Document) :
    r.found rule d = p.findAll d.forest r.predicates r.settings d.root := by
  rw [Runner.found, CompiledPattern.findAll, CompiledPattern.findAll, CompiledPattern.find,
    CompiledPattern.find, CompiledPattern.query, CompiledPattern.query, h.program]

theorem check_eq_ok (h : rule.Completes p t mode) {predicates : Predicates}
    (hcheck : predicates.check p = .ok ()) : predicates.check rule.pattern = .ok () := by
  rw [Predicates.check_eq_ok] at hcheck ⊢
  rwa [h.predicates]

theorem run_of_pass (h : rule.Completes p t .once) (hcheck : r.predicates.check p = .ok ())
    {tally : Tally} (hpass : r.pass rule d = (d', .ok tally)) :
    r.run rule d = (d', .ok (Outcome.add {} tally)) := by
  simp only [Runner.run, h.check_eq_ok hcheck, h.mode, hpass]

theorem run_eq_repeatPasses (h : rule.Completes p t .repeatedly)
    (hcheck : r.predicates.check p = .ok ()) :
    r.run rule d = r.repeatPasses rule d {} r.settings.maxPasses := by
  simp only [Runner.run, h.check_eq_ok hcheck, h.mode]

end Completes

/-! ### The text of such a rule -/

/-- **A template behind a pattern that has none makes a rule of it.**  The template must have a
derivation in the place where it comes to stand, refer to nothing but the target and ask for no
predicate. -/
theorem exists_completes_of_nodes {more : String} {ts : List (Placed Token)}
    (nodes : Option Nodes) (h : CompiledPattern.read text settings = .ok p)
    (hnone : p.template = none) (hmore : Token.readAll more = .ok ts)
    (hnodes : (nodes.map Nodes.tokens).getD [] =
      ts.map (·.relocate (· + (byteWidth text.toList + 1 + 2 + 1))))
    (htarget : ∀ name position, ⟨.reference name, position⟩ ∈ ts → name = "0")
    (hasks : ∀ offset, Token.predicateReferences (ts.map (·.relocate (· + offset))) = [])
    (mode : Mode) :
    ∃ rule, Rule.read (text ++ " -> " ++ more) mode settings = .ok rule ∧
      rule.Completes p ⟨(nodes.map Nodes.template).getD []⟩ mode := by
  obtain ⟨d, htokens, hadmissible, rfl⟩ := CompiledPattern.exists_derivation_of_read h
  have harrow : d.arrow = none := Option.map_eq_none_iff.mp hnone
  have htokens' : Token.readAll (text ++ " -> " ++ more) = .ok
      (Token.aroundArrow d.tokens ts (byteWidth text.toList + 1)
        (byteWidth text.toList + 1 + 2 + 1)) := by
    have hblank : ∀ c ∈ [' '], isBlank c = true := by simp [show isBlank ' ' = true by decide]
    have hread := Token.readFrom_arrow htokens hmore (fun _ => by simp) hblank hblank
    simpa [Token.readAll, show ' '.utf8Size = 1 from rfl] using hread
  -- the derivation of the pattern, with the arrow and the template
  let d' : Derivation := { d with arrow := some ⟨byteWidth text.toList + 1, nodes⟩ }
  have hd' : d'.tokens = Token.aroundArrow d.tokens ts (byteWidth text.toList + 1)
      (byteWidth text.toList + 1 + 2 + 1) := by
    rw [Token.aroundArrow, ← hnodes, Derivation.tokens, Derivation.tokens, harrow]
    simp only [arrowTokens, d', List.append_nil, List.append_assoc]
    rfl
  have hadmissible' : d'.Admissible settings.maxBound := by
    refine ⟨hadmissible.allowed, hadmissible.backward, ?_⟩
    rintro arrow name position harrow' hmem hname
    obtain rfl := Option.some.inj harrow'
    rw [Arrow.nodeTokens, hnodes, List.mem_map] at hmem
    obtain ⟨⟨token, position'⟩, hmem, heq⟩ := hmem
    obtain rfl : token = .reference name := (Placed.mk.inj heq).1
    exact absurd (htarget name position' hmem) hname
  have hread := CompiledPattern.read_of_derivation (htokens'.trans (congrArg Except.ok hd'.symm))
    hadmissible'
  refine ⟨_, by rw [Rule.read, hread]; rfl, ⟨_, _, hread⟩, rfl, ?_, rfl, rfl⟩
  show Token.predicateReferences d'.tokens = Token.predicateReferences d.tokens
  rw [hd', Token.aroundArrow, Token.predicateReferences, List.filterMap_append,
    List.filterMap_cons]
  have hnot := hasks (byteWidth text.toList + 1 + 2 + 1)
  rw [Token.predicateReferences] at hnot
  rw [hnot, List.append_nil]
  rfl

/-- **An arrow behind a pattern makes a rule that replaces by nothing.** -/
theorem exists_completes_nothing (h : CompiledPattern.read text settings = .ok p)
    (hnone : p.template = none) (mode : Mode) :
    ∃ rule, Rule.read (text ++ " -> ") mode settings = .ok rule ∧
      rule.Completes p .nothing mode := by
  have hempty : Token.readAll "" = .ok [] := by cbv
  have hrule := exists_completes_of_nodes none h hnone hempty rfl (by simp) (fun _ => rfl) mode
  rwa [String.append_empty] at hrule

/-- **An arrow and `$0` behind a pattern make a rule that replaces by the target.** -/
theorem exists_completes_target (h : CompiledPattern.read text settings = .ok p)
    (hnone : p.template = none) (mode : Mode) :
    ∃ rule, Rule.read (text ++ " -> $0") mode settings = .ok rule ∧
      rule.Completes p .target mode := by
  have hzero : Token.readAll "$0" = .ok [⟨.reference "0", 0⟩] := by cbv
  have hrule := exists_completes_of_nodes
    (some (.mk (.reference ⟨"0", 0 + (byteWidth text.toList + 1 + 2 + 1)⟩) .nil)) h hnone hzero rfl
    (by simp) (fun _ => rfl) mode
  rwa [String.append_assoc] at hrule

end Rule

end TreeRules
