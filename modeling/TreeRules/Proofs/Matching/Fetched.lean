/-
A machine stays in its program.

A step looks at one instruction at most, and `fetched?` says where.  Where control does not leave
the program, that is always a place of the program: each thread, whether it is followed or left as a
choice point, has come to one, and candidates wait only at an instruction that consumes one of them.
One step keeps that true, so it is true of every machine that comes of a new one.  It does not
matter what the tree is like, or whether the machine comes to an end.
-/
import Mathlib.Logic.Relation
import TreeRules.Proofs.Matching.Machine
import TreeRules.Proofs.Program.Closed
import TreeRules.Proofs.Program.Draft

namespace TreeRules

/-- The place of the instruction that the next step of a machine looks at, if it looks at one. -/
def Machine.fetched? : Machine → Option Nat
  | following t _ => some t.place
  | resuming (.among place _ _ :: _) => some place
  | resuming _ => none

/-- The choice point leads to a place of the program. -/
def Choice.Within (program : Program) : Choice → Prop
  | branch t => t.place < program.instructions.size
  | among place _ _ => ∃ axis test slots, program.at? place = some (.find axis test slots)

/-- The machine is at a place of the program, and so are its choice points. -/
def Machine.Within (program : Program) : Machine → Prop
  | following t choices =>
    t.place < program.instructions.size ∧ ∀ choice ∈ choices, choice.Within program
  | resuming choices => ∀ choice ∈ choices, choice.Within program

/-- The machine that is left is at a place of the program, and so are its choice points. -/
def Progress.Within (program : Program) : Progress → Prop
  | running m => m.Within program
  | found _ choices => ∀ choice ∈ choices, choice.Within program
  | exhausted => True

section

variable {program : Program} {place : Nat} {m : Machine}

theorem Machine.Within.fetched_lt (h : m.Within program) (hfetched : m.fetched? = some place) :
    place < program.instructions.size := by
  cases m with
  | following t choices =>
      obtain rfl := Option.some.inj hfetched
      exact h.1
  | resuming choices =>
      rcases choices with - | ⟨⟨t⟩ | ⟨place', trail, candidates⟩, choices⟩
      · cases hfetched
      · cases hfetched
      · obtain rfl := Option.some.inj hfetched
        obtain ⟨axis, test, slots, hfind⟩ := h _ List.mem_cons_self
        exact Program.lt_size_of_at? hfind

end

namespace Search

variable {s s' : Search} {m m' : Machine} {t : Thread} {choice : Choice} {choices : List Choice}

/-! ### One step -/

/-- **No other instruction is looked at:** programs with the same captures and the same instruction
at that place make the same step. -/
theorem step_eq_of_fetched (hscene : s.toScene = s'.toScene)
    (hcaptures : s.program.captures = s'.program.captures)
    (hat : ∀ place, m.fetched? = some place → s.program.at? place = s'.program.at? place) :
    s.step m = s'.step m := by
  obtain ⟨scene, program⟩ := s
  obtain ⟨scene', program'⟩ := s'
  obtain rfl : scene = scene' := hscene
  rcases m with ⟨t, choices⟩ | ⟨- | ⟨⟨t⟩ | ⟨place, trail, candidates⟩, choices⟩⟩
  · rw [step, step, follow, follow, hat t.place rfl]
    rfl
  · rfl
  · rfl
  · have haccepts : accepts ⟨scene, program⟩ = accepts ⟨scene, program'⟩ := by
      funext test trail n
      have hslot : program.slot? = program'.slot? := by
        funext name
        rw [Program.slot?, Program.slot?, hcaptures]
      simp only [accepts, passes, bound, hslot]
    rw [step, step, resume, resume, hat place rfl, haccepts]

theorem within_follow (hclosed : s.program.Closed)
    (hchoices : ∀ choice ∈ choices, choice.Within s.program) :
    (s.follow t choices).Within s.program := by
  unfold follow
  split
  · exact hchoices
  · rename_i axis test slots hat
    exact List.forall_mem_cons.mpr ⟨⟨axis, test, slots, hat⟩, hchoices⟩
  · rename_i anchor hat
    split
    · exact ⟨hclosed.next_lt hat (by simp), hchoices⟩
    · exact hchoices
  · rename_i hat
    split
    · exact ⟨hclosed.next_lt hat (by simp), hchoices⟩
    · exact hchoices
  · rename_i first second hat
    have hfirst := hclosed.target_lt _ _ hat first (by simp [Instruction.targets])
    have hsecond := hclosed.target_lt _ _ hat second (by simp [Instruction.targets])
    exact ⟨hfirst, List.forall_mem_cons.mpr ⟨hsecond, hchoices⟩⟩
  · rename_i target hat
    exact ⟨hclosed.target_lt _ _ hat target (by simp [Instruction.targets]), hchoices⟩
  · split
    · exact hchoices
    · exact hchoices

theorem within_resume (hclosed : s.program.Closed) (hchoice : choice.Within s.program)
    (hchoices : ∀ choice ∈ choices, choice.Within s.program) :
    (s.resume choice choices).Within s.program := by
  unfold resume
  split
  · exact ⟨hchoice, hchoices⟩
  · rename_i place trail candidates
    split
    · rename_i axis test slots n others hat hnext
      have hothers : ∀ choice ∈ Choice.among place trail others :: choices,
          choice.Within s.program :=
        List.forall_mem_cons.mpr ⟨⟨axis, test, slots, hat⟩, hchoices⟩
      split
      · exact ⟨hclosed.next_lt hat (by simp), hothers⟩
      · exact hothers
    · exact hchoices

theorem within_step (hclosed : s.program.Closed) (hm : m.Within s.program) :
    (s.step m).Within s.program := by
  rcases m with ⟨t, choices⟩ | ⟨- | ⟨choice, choices⟩⟩
  · exact within_follow hclosed hm.2
  · trivial
  · rw [Machine.Within, List.forall_mem_cons] at hm
    exact within_resume hclosed hm.1 hm.2

/-! ### A run -/

theorem Moves.within (h : s.Moves m m') (hclosed : s.program.Closed)
    (hm : m.Within s.program) : m'.Within s.program := by
  have hstep := within_step hclosed hm
  cases h with
  | running h => rwa [h] at hstep
  | found h => rwa [h] at hstep

theorem within_initial (hclosed : s.program.Closed) :
    (Machine.resuming initial).Within s.program :=
  List.forall_mem_singleton.mpr hclosed.size_pos

/-- **A machine stays in a program that control does not leave.** -/
theorem within_of_moves (hclosed : s.program.Closed)
    (h : Relation.ReflTransGen s.Moves (.resuming initial) m) : m.Within s.program := by
  induction h with
  | refl => exact within_initial hclosed
  | tail _ hmove ih => exact hmove.within hclosed ih

end Search

/-- **Control stays in the program of a pattern.**  Written from front to back, the program has no
place that is left open.  Where its instructions lead is in it, and the end of a match stands at its
end only.  What leads back are the jumps of the repetitions without bound.  So on no tree does a
machine look for an instruction outside the program. -/
theorem Pattern.control_stays_in_compile (p : Pattern) :
    p.compile.Closed ∧
      p.written = ⟨p.compile.instructions.toList.map some, p.compile.captures⟩ ∧
      (∀ place instruction, p.compile.at? place = some instruction →
        ∀ target ∈ instruction.targets, target ≤ place →
          instruction = .jump target ∧ ∃ l ∈ p.loops 0, l.head = target ∧ l.back = place) ∧
      (∀ l ∈ p.loops 0,
        (∃ min, repetition l.body min none l.greedy ∈ p.parts) ∧ l.StandsIn p.compile) ∧
      ∀ s : Search, s.program = p.compile →
        ∀ m, Relation.ReflTransGen s.Moves (.resuming Search.initial) m →
          ∀ place, m.fetched? = some place → place < p.compile.instructions.size := by
  refine ⟨p.closed_compile, p.written_eq, fun place instruction hat target htarget hle => ?_,
    fun l hl => ⟨mem_parts_of_mem_loops p 0 hl, standsIn_compile hl⟩,
    fun s hs m hreach place hfetched => ?_⟩
  · exact back_compile hat htarget hle
  · have hclosed : s.program.Closed := hs ▸ p.closed_compile
    have hlt := (Search.within_of_moves hclosed hreach).fetched_lt hfetched
    rwa [hs] at hlt

end TreeRules
