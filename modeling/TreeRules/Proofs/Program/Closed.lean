/-
Programs that control does not leave.

The code of a pattern stands in one stretch, and what its instructions name as places to go on at
lies in the stretch or right behind it.  Stretches that follow one another make up a stretch of that
kind again, and so do a choice or a jump and what it stands before, as long as it leads no further
than the whole goes.  Hence it holds of code however it is nested, by one lemma for each way in
which code is put together.

All this is forwards.  The one thing that leads back is the jump behind the body of a repetition
without bound.  `loops` lists where these stand, and with each of them the repetition, which is part
of the pattern.

A program is the code of its pattern and the instruction that ends a match.  That is the last one
and the only one of its kind, so behind every other instruction there is a next one.
-/
import TreeRules.Proofs.Matching.Code
import TreeRules.Proofs.Pattern.Parts

namespace TreeRules

/-- The places that the instruction names. -/
def Instruction.targets : Instruction → List Nat
  | split first second => [first, second]
  | jump target => [target]
  | find .. | check _ | parent | done => []

/-- A repetition without bound, where it stands in a program. -/
structure Loop where
  body : Pattern
  greedy : Bool
  /-- The place of the choice before each round. -/
  head : Nat

/-- The place of the jump behind each round. -/
def Loop.back (l : Loop) : Nat := l.head + 1 + l.body.codeLength

/-- Before each round there is the choice to go on behind the loop, and behind each round the jump
back to it. -/
structure Loop.StandsIn (l : Loop) (program : Program) : Prop where
  head : program.at? l.head = some (Pattern.choice l.greedy (l.head + 1) (l.back + 1))
  back : program.at? l.back = some (.jump l.head)

/-- Control stays in the program: every place that is named is in it, and the end of a match stands
at its end and nowhere else. -/
structure Program.Closed (program : Program) : Prop where
  size_pos : 0 < program.instructions.size
  target_lt : ∀ place instruction, program.at? place = some instruction →
    ∀ target ∈ instruction.targets, target < program.instructions.size
  done_iff : ∀ place, program.at? place = some .done ↔ place + 1 = program.instructions.size

theorem Program.lt_size_of_at? {program : Program} {place : Nat} {instruction : Instruction}
    (h : program.at? place = some instruction) : place < program.instructions.size :=
  (Array.getElem?_eq_some_iff.mp h).1

/-- Behind an instruction that does not end a match there is another. -/
theorem Program.Closed.next_lt {program : Program} {place : Nat} {instruction : Instruction}
    (hclosed : program.Closed) (h : program.at? place = some instruction)
    (hne : instruction ≠ .done) : place + 1 < program.instructions.size := by
  refine Nat.lt_of_le_of_ne (Program.lt_size_of_at? h) fun hlast => hne ?_
  rw [← hclosed.done_iff, h] at hlast
  exact Option.some.inj hlast

namespace Pattern

/-! ### Where the loops stand -/

/-- The loops of code that stands `count` times, first at `start` and then every `stride` places. -/
def repeated (loops : Nat → List Loop) (stride start : Nat) : Nat → List Loop
  | 0 => []
  | count + 1 => loops start ++ repeated loops stride (start + stride) count

/-- The loops of the code for the times that a body may be repeated beyond `min`. -/
def extraLoops (loops : Nat → List Loop) (body : Pattern) (greedy : Bool) (start min : Nat) :
    Option Nat → List Loop
  | some max => repeated loops (body.codeLength + 1) (start + 1) (max - min)
  | none => ⟨body, greedy, start⟩ :: loops (start + 1)

mutual

/-- The loops in the code of a pattern at place `start`. -/
def loops (start : Nat) : Pattern → List Loop
  | test _ | anchor _ | parent => []
  | sequence steps => loopsInSteps start steps
  | alternation branches => loopsInBranches start branches
  | repetition body min max greedy =>
    repeated (fun start => loops start body) body.codeLength start min ++
      extraLoops (fun start => loops start body) body greedy (start + min * body.codeLength) min max
  | capture _ body => loops start body

/-- The loops in the code of some steps. -/
def loopsInSteps (start : Nat) : List (Option Axis × Pattern) → List Loop
  | [] => []
  | (_, step) :: steps => loops start step ++ loopsInSteps (start + codeLength step) steps

/-- The loops in the code of some branches. -/
def loopsInBranches (start : Nat) : List Pattern → List Loop
  | [] => []
  | [branch] => loops start branch
  | branch :: branches =>
    loops (start + 1) branch ++ loopsInBranches (start + codeLength branch + 2) branches

end

theorem exists_mem_of_mem_repeated {loops : Nat → List Loop} {stride : Nat} {l : Loop}
    (count : Nat) :
    ∀ start, l ∈ repeated loops stride start count → ∃ start', l ∈ loops start' := by
  induction count with
  | zero =>
      intro start h
      cases h
  | succ count ih =>
      intro start h
      rw [repeated, List.mem_append] at h
      rcases h with h | h
      · exact ⟨start, h⟩
      · exact ih _ h

theorem loopsInBranches_cons_cons (start : Nat) (branch next : Pattern) (branches : List Pattern) :
    loopsInBranches start (branch :: next :: branches) = loops (start + 1) branch ++
      loopsInBranches (start + codeLength branch + 2) (next :: branches) := by
  rw [loopsInBranches]
  exact List.cons_ne_nil next branches

mutual

/-- **Every loop is that of a repetition without bound** that stands in the pattern. -/
theorem mem_parts_of_mem_loops {l : Loop} :
    ∀ (p : Pattern) (start : Nat), l ∈ p.loops start →
      ∃ min, repetition l.body min none l.greedy ∈ p.parts
  | test _, _, h | anchor _, _, h | parent, _, h => by
      rw [loops] at h
      cases h
  | sequence steps, start, h => by
      rw [loops] at h
      obtain ⟨min, hmin⟩ := mem_parts_of_mem_loopsInSteps steps start h
      exact ⟨min, by rw [parts]; exact List.mem_cons_of_mem _ hmin⟩
  | alternation branches, start, h => by
      rw [loops] at h
      obtain ⟨min, hmin⟩ := mem_parts_of_mem_loopsInBranches branches start h
      exact ⟨min, by rw [parts]; exact List.mem_cons_of_mem _ hmin⟩
  | repetition body min max greedy, start, h => by
      have hbody : ∀ start', l ∈ body.loops start' →
          ∃ min', repetition l.body min' none l.greedy ∈
            (repetition body min max greedy).parts := by
        intro start' h'
        obtain ⟨min', hmin'⟩ := mem_parts_of_mem_loops body start' h'
        exact ⟨min', by rw [parts]; exact List.mem_cons_of_mem _ hmin'⟩
      rw [loops, List.mem_append] at h
      rcases h with h | h
      · obtain ⟨start', h'⟩ := exists_mem_of_mem_repeated min start h
        exact hbody start' h'
      · cases max with
        | some max =>
            obtain ⟨start', h'⟩ := exists_mem_of_mem_repeated _ _ h
            exact hbody start' h'
        | none =>
            rw [extraLoops, List.mem_cons] at h
            rcases h with rfl | h
            · exact ⟨min, mem_parts_self _⟩
            · exact hbody _ h
  | capture name body, start, h => by
      rw [loops] at h
      obtain ⟨min, hmin⟩ := mem_parts_of_mem_loops body start h
      exact ⟨min, by rw [parts]; exact List.mem_cons_of_mem _ hmin⟩

theorem mem_parts_of_mem_loopsInSteps {l : Loop} :
    ∀ (steps : List (Option Axis × Pattern)) (start : Nat), l ∈ loopsInSteps start steps →
      ∃ min, repetition l.body min none l.greedy ∈ partsOfSteps steps
  | [], _, h => by
      rw [loopsInSteps] at h
      cases h
  | (_, step) :: steps, start, h => by
      rw [loopsInSteps, List.mem_append] at h
      rw [partsOfSteps]
      rcases h with h | h
      · obtain ⟨min, hmin⟩ := mem_parts_of_mem_loops step start h
        exact ⟨min, List.mem_append_left _ hmin⟩
      · obtain ⟨min, hmin⟩ := mem_parts_of_mem_loopsInSteps steps _ h
        exact ⟨min, List.mem_append_right _ hmin⟩

theorem mem_parts_of_mem_loopsInBranches {l : Loop} :
    ∀ (branches : List Pattern) (start : Nat), l ∈ loopsInBranches start branches →
      ∃ min, repetition l.body min none l.greedy ∈ partsOfBranches branches
  | [], _, h => by
      rw [loopsInBranches] at h
      cases h
  | [branch], start, h => by
      rw [loopsInBranches] at h
      obtain ⟨min, hmin⟩ := mem_parts_of_mem_loops branch start h
      exact ⟨min, by rw [partsOfBranches]; exact List.mem_append_left _ hmin⟩
  | branch :: next :: branches, start, h => by
      rw [loopsInBranches_cons_cons, List.mem_append] at h
      rw [partsOfBranches]
      rcases h with h | h
      · obtain ⟨min, hmin⟩ := mem_parts_of_mem_loops branch _ h
        exact ⟨min, List.mem_append_left _ hmin⟩
      · obtain ⟨min, hmin⟩ := mem_parts_of_mem_loopsInBranches (next :: branches) _ h
        exact ⟨min, List.mem_append_right _ hmin⟩

end

/-! ### Stretches of code -/

/-- The instruction, which stands at `place`, does not end a match.  It leads no further than
`finish`, and leads back only as the jump of one of the loops. -/
structure Bounded (finish : Nat) (loops : List Loop) (place : Nat) (instruction : Instruction) :
    Prop where
  ne_done : instruction ≠ .done
  target_le : ∀ target ∈ instruction.targets, target ≤ finish
  back : ∀ target ∈ instruction.targets, target ≤ place →
    instruction = .jump target ∧ ∃ l ∈ loops, l.head = target ∧ l.back = place

/-- The code, which stands at `start`, leads no further than `finish`, and leads back only by these
loops, which all stand in it. -/
structure Sealed (start finish : Nat) (code : List Instruction) (loops : List Loop) : Prop where
  bounded : ∀ i instruction, code[i]? = some instruction →
    Bounded finish loops (start + i) instruction
  standing : ∀ program : Program, program.Holds start code → ∀ l ∈ loops, l.StandsIn program

section

variable {start middle finish length : Nat} {code code' : List Instruction}
  {loops loops' : List Loop} {instruction : Instruction} {place : Nat}

theorem Bounded.mono (h : Bounded finish loops place instruction) (hsub : loops ⊆ loops') :
    Bounded finish loops' place instruction where
  ne_done := h.ne_done
  target_le := h.target_le
  back := by
    intro target htarget hle
    obtain ⟨hjump, l, hl, hplaces⟩ := h.back target htarget hle
    exact ⟨hjump, l, hsub hl, hplaces⟩

theorem bounded_of_forward (hne : instruction ≠ .done)
    (h : ∀ target ∈ instruction.targets, place < target ∧ target ≤ finish) :
    Bounded finish [] place instruction where
  ne_done := hne
  target_le := by
    intro target htarget
    exact (h target htarget).2
  back := by
    intro target htarget hle
    exact absurd hle (Nat.not_le.mpr (h target htarget).1)

namespace Sealed

theorem nil (start finish : Nat) : Sealed start finish [] [] where
  bounded := by
    intro i instruction hi
    cases hi
  standing := by
    intro program _ l hl
    cases hl

/-- **Stretches that follow one another.** -/
theorem append (h : Sealed start finish code loops) (hmiddle : start + code.length = middle)
    (h' : Sealed middle finish code' loops') :
    Sealed start finish (code ++ code') (loops ++ loops') where
  bounded := by
    intro i instruction hi
    rcases Nat.lt_or_ge i code.length with hlt | hge
    · rw [List.getElem?_append_left hlt] at hi
      exact (h.bounded i instruction hi).mono (List.subset_append_left _ _)
    · rw [List.getElem?_append_right hge] at hi
      have hplace : start + i = middle + (i - code.length) := by omega
      rw [hplace]
      exact (h'.bounded _ instruction hi).mono (List.subset_append_right _ _)
  standing := by
    intro program hprogram l hl
    rcases List.mem_append.mp hl with hl | hl
    · exact h.standing program hprogram.left l hl
    · exact h'.standing program (hmiddle ▸ hprogram.right) l hl

/-- An instruction that leads forwards. -/
theorem single (hne : instruction ≠ .done)
    (h : ∀ target ∈ instruction.targets, start < target ∧ target ≤ finish) :
    Sealed start finish [instruction] [] where
  bounded := by
    intro i other hi
    obtain ⟨rfl, rfl⟩ : i = 0 ∧ instruction = other := by
      cases i with
      | zero => exact ⟨rfl, Option.some.inj hi⟩
      | succ i => cases hi
    exact bounded_of_forward hne h
  standing := by
    intro program _ l hl
    cases hl

theorem cons (hne : instruction ≠ .done)
    (h : ∀ target ∈ instruction.targets, start < target ∧ target ≤ finish)
    (h' : Sealed (start + 1) finish code loops) : Sealed start finish (instruction :: code) loops :=
  (single hne h).append rfl h'

end Sealed

theorem choice_ne_done (greedy : Bool) (body finish : Nat) : choice greedy body finish ≠ .done := by
  cases greedy <;> simp [choice]

theorem mem_targets_choice {greedy : Bool} {body finish target : Nat} :
    target ∈ (choice greedy body finish).targets ↔ target = body ∨ target = finish := by
  cases greedy <;> simp [choice, Instruction.targets, or_comm]

/-- **A choice before some code**, and the jump back to it behind. -/
theorem Sealed.loop {code : Nat → List Instruction} {body : Pattern}
    (h : Sealed (start + 1) finish (code (start + 1)) loops)
    (hcode : (code (start + 1)).length = body.codeLength) (greedy : Bool)
    (hfinish : start + (body.codeLength + 2) ≤ finish) :
    Sealed start finish (Pattern.loop code body.codeLength greedy start)
      (⟨body, greedy, start⟩ :: loops) := by
  have hround : Sealed start finish
      (choice greedy (start + 1) (start + body.codeLength + 2) :: code (start + 1)) loops := by
    refine .cons (choice_ne_done _ _ _) (fun target htarget => ?_) h
    rcases mem_targets_choice.mp htarget with rfl | rfl <;> omega
  have hback : (Loop.mk body greedy start).back = start + (body.codeLength + 1) := by
    show start + 1 + body.codeLength = start + (body.codeLength + 1)
    omega
  refine ⟨fun i instruction hi => ?_, fun program hprogram => ?_⟩
  · rw [Pattern.loop] at hi
    rcases Nat.lt_or_ge i (body.codeLength + 1) with hlt | hge
    · rw [List.getElem?_append_left (by rwa [List.length_cons, hcode])] at hi
      exact (hround.bounded i instruction hi).mono (List.subset_cons_self _ _)
    · -- behind the round there is nothing but the jump
      rw [List.getElem?_append_right (by rwa [List.length_cons, hcode]), List.length_cons, hcode,
        List.getElem?_singleton] at hi
      split at hi
      · rename_i hzero
        obtain rfl := Option.some.inj hi
        obtain rfl : i = body.codeLength + 1 := by omega
        refine ⟨by simp, fun target htarget => ?_, fun target htarget _ => ?_⟩
        · obtain rfl : target = start := by simpa [Instruction.targets] using htarget
          omega
        · obtain rfl : target = start := by simpa [Instruction.targets] using htarget
          exact ⟨rfl, _, List.mem_cons_self, rfl, hback⟩
      · cases hi
  · rw [Pattern.loop] at hprogram
    rw [List.forall_mem_cons]
    refine ⟨⟨?_, ?_⟩, hround.standing program hprogram.left⟩
    · rw [hback]
      exact hprogram.left.head
    · have hjump := hprogram.right.head
      rwa [List.length_cons, hcode, ← hback] at hjump

end

/-! ### Copies -/

section

variable {code : Nat → List Instruction} {loops : Nat → List Loop} {body : Pattern} {finish : Nat}
  (hlength : ∀ start, (code start).length = body.codeLength)
  (hcode : ∀ start, start + body.codeLength ≤ finish → Sealed start finish (code start) (loops start))

include hlength hcode

theorem sealed_copies (count : Nat) :
    ∀ start, start + count * body.codeLength ≤ finish →
      Sealed start finish (copies code body.codeLength start count)
        (repeated loops body.codeLength start count) := by
  induction count with
  | zero =>
      intro start _
      exact .nil start finish
  | succ count ih =>
      intro start hle
      rw [Nat.succ_mul] at hle
      rw [copies, repeated]
      exact (hcode start (by omega)).append (by rw [hlength]) (ih _ (by omega))

/-- The choices before the copies all lead to the same place behind the last one. -/
theorem sealed_optionalCopies {stop : Nat} (hstop : stop ≤ finish) (greedy : Bool) (count : Nat) :
    ∀ start, start + count * (body.codeLength + 1) ≤ stop →
      Sealed start finish (optionalCopies code body.codeLength stop greedy start count)
        (repeated loops (body.codeLength + 1) (start + 1) count) := by
  induction count with
  | zero =>
      intro start _
      exact .nil start finish
  | succ count ih =>
      intro start hle
      rw [Nat.succ_mul] at hle
      have hrest := ih (start + 1 + body.codeLength) (by omega)
      rw [Nat.add_assoc _ body.codeLength 1] at hrest
      have hfirst : Sealed start finish (choice greedy (start + 1) stop :: code (start + 1))
          (loops (start + 1)) := by
        refine .cons (choice_ne_done _ _ _) (fun target htarget => ?_) (hcode _ (by omega))
        rcases mem_targets_choice.mp htarget with rfl | rfl <;> omega
      rw [optionalCopies, repeated]
      refine hfirst.append ?_ hrest
      rw [List.length_cons, hlength]
      omega

theorem sealed_extraCode (greedy : Bool) (min : Nat) (max : Option Nat) {start : Nat}
    (hle : start + extraLength body.codeLength min max ≤ finish) :
    Sealed start finish (extraCode code body.codeLength greedy start min max)
      (extraLoops loops body greedy start min max) := by
  cases max with
  | some max =>
      exact sealed_optionalCopies hlength hcode hle greedy (max - min) start (Nat.le_refl _)
  | none =>
      rw [extraLength] at hle
      exact (hcode (start + 1) (by omega)).loop (hlength _) greedy hle

end

/-! ### Code of patterns -/

mutual

/-- **The code of a pattern is sealed**, whatever stands around it. -/
theorem sealed_code (names : List String) {finish : Nat} :
    ∀ (p : Pattern) (active : List Nat) (axis : Axis) (start : Nat),
      start + p.codeLength ≤ finish →
        Sealed start finish (code names active axis start p) (p.loops start)
  | test _, _, _, _, _ | anchor _, _, _, _, _ | parent, _, _, _, _ => by
      rw [code, loops]
      exact .single (by simp) (by simp [Instruction.targets])
  | sequence steps, active, axis, start, hle => by
      rw [codeLength] at hle
      rw [code, loops]
      exact sealed_codeOfSteps names steps active axis start hle
  | alternation branches, active, axis, start, hle => by
      rw [codeLength] at hle
      rw [code, loops]
      exact sealed_codeOfBranches names branches active axis start (Nat.le_of_eq (by omega))
        (Nat.le_trans (Nat.le_of_eq (by omega)) hle)
  | repetition body min max greedy, active, axis, start, hle => by
      have hlength := length_code names body active axis
      have hbody : ∀ start, start + body.codeLength ≤ finish →
          Sealed start finish (code names active axis start body) (body.loops start) :=
        sealed_code names body active axis
      rw [codeLength_repetition] at hle
      rw [code_repetition, loops]
      refine (sealed_copies hlength hbody min start (by omega)).append ?_
        (sealed_extraCode hlength hbody greedy min max (by omega))
      rw [length_copies hlength]
  | capture name body, active, axis, start, hle => by
      rw [codeLength] at hle
      rw [code, loops]
      exact sealed_code names body _ axis start hle

theorem sealed_codeOfSteps (names : List String) {finish : Nat} :
    ∀ (steps : List (Option Axis × Pattern)) (active : List Nat) (axis : Axis) (start : Nat),
      start + stepsLength steps ≤ finish →
        Sealed start finish (codeOfSteps names active axis start steps) (loopsInSteps start steps)
  | [], _, _, start, _ => by
      rw [codeOfSteps, loopsInSteps]
      exact .nil start finish
  | (own, step) :: steps, active, axis, start, hle => by
      rw [stepsLength] at hle
      rw [codeOfSteps, loopsInSteps]
      refine (sealed_code names step active _ start (by omega)).append ?_
        (sealed_codeOfSteps names steps active axis _ (by omega))
      rw [length_code]

/-- The jumps behind the branches all lead to the same place behind the last one. -/
theorem sealed_codeOfBranches (names : List String) {stop finish : Nat} :
    ∀ (branches : List Pattern) (active : List Nat) (axis : Axis) (start : Nat),
      start + (branchesLength branches + 2 * (branches.length - 1)) ≤ stop → stop ≤ finish →
        Sealed start finish (codeOfBranches names active axis start stop branches)
          (loopsInBranches start branches)
  | [], _, _, start, _, _ => by
      rw [codeOfBranches, loopsInBranches]
      exact .nil start finish
  | [branch], active, axis, start, hle, hstop => by
      rw [branchesLength, branchesLength] at hle
      rw [codeOfBranches, loopsInBranches]
      exact sealed_code names branch active axis start (by omega)
  | branch :: next :: branches, active, axis, start, hle, hstop => by
      rw [branchesLength, List.length_cons, Nat.add_sub_cancel] at hle
      have hlast : 2 * ((next :: branches).length - 1) + 2 = 2 * (next :: branches).length := by
        rw [List.length_cons]
        omega
      have hfirst : Sealed start finish
          (.split (start + 1) (start + branch.codeLength + 2) ::
            code names active axis (start + 1) branch) (branch.loops (start + 1)) := by
        refine .cons (by simp) (fun target htarget => ?_)
          (sealed_code names branch active axis _ (by omega))
        simp only [Instruction.targets, List.mem_cons, List.not_mem_nil, or_false] at htarget
        rcases htarget with rfl | rfl <;> omega
      have hrest : Sealed (start + branch.codeLength + 1) finish
          (.jump stop :: codeOfBranches names active axis (start + branch.codeLength + 2) stop
            (next :: branches))
          (loopsInBranches (start + branch.codeLength + 2) (next :: branches)) := by
        refine .cons (by simp) (fun target htarget => ?_)
          (sealed_codeOfBranches names (next :: branches) active axis _ (by omega) hstop)
        obtain rfl : target = stop := by simpa [Instruction.targets] using htarget
        omega
      rw [codeOfBranches_cons_cons, loopsInBranches_cons_cons]
      refine hfirst.append ?_ hrest
      rw [List.length_cons, length_code]
      omega

end

/-! ### Programs -/

section

variable {p : Pattern} {place target : Nat} {instruction : Instruction}

theorem size_compile (p : Pattern) : p.compile.instructions.size = p.codeLength + 1 := by
  simp [compile, length_code]

/-- The code of the pattern, and behind it the end of a match. -/
theorem holds_compile (p : Pattern) :
    p.compile.Holds 0 (code (slotNames p.captureSlots) [] .child 0 p ++ [.done]) := by
  intro i instruction hi
  rw [Nat.zero_add, Program.at?, compile, List.getElem?_toArray]
  exact hi

theorem sealed_compile (p : Pattern) :
    Sealed 0 p.codeLength (code (slotNames p.captureSlots) [] .child 0 p) (p.loops 0) :=
  sealed_code _ p [] .child 0 (Nat.le_of_eq (Nat.zero_add _))

theorem at?_compile_codeLength (p : Pattern) : p.compile.at? p.codeLength = some .done := by
  have hdone := (holds_compile p).right.head
  rwa [length_code, Nat.zero_add] at hdone

theorem bounded_or_last (h : p.compile.at? place = some instruction) :
    Bounded p.codeLength (p.loops 0) place instruction ∨
      place = p.codeLength ∧ instruction = .done := by
  have hlt := Program.lt_size_of_at? h
  rw [size_compile] at hlt
  rcases Nat.lt_or_ge place p.codeLength with hin | hge
  · refine Or.inl ?_
    have hlength := length_code (slotNames p.captureSlots) p [] .child 0
    have hcode : (code (slotNames p.captureSlots) [] .child 0 p)[place]? = some instruction := by
      obtain ⟨other, hother⟩ : ∃ other,
          (code (slotNames p.captureSlots) [] .child 0 p)[place]? = some other :=
        ⟨_, List.getElem?_eq_getElem (hlength ▸ hin)⟩
      have hsame := (holds_compile p).left place other hother
      rw [Nat.zero_add, h] at hsame
      rw [hother, hsame]
    have hbounded := (sealed_compile p).bounded place instruction hcode
    rwa [Nat.zero_add] at hbounded
  · obtain rfl : place = p.codeLength := Nat.le_antisymm (Nat.le_of_lt_succ hlt) hge
    rw [at?_compile_codeLength] at h
    exact Or.inr ⟨rfl, (Option.some.inj h).symm⟩

/-- **Control does not leave the program of a pattern.** -/
theorem closed_compile (p : Pattern) : p.compile.Closed where
  size_pos := by
    rw [size_compile]
    exact Nat.succ_pos _
  target_lt := by
    intro place instruction h target htarget
    rw [size_compile]
    rcases bounded_or_last h with hbounded | ⟨-, rfl⟩
    · exact Nat.lt_succ_of_le (hbounded.target_le target htarget)
    · cases htarget
  done_iff := by
    intro place
    rw [size_compile, Nat.add_right_cancel_iff]
    constructor
    · intro h
      rcases bounded_or_last h with hbounded | ⟨hplace, -⟩
      · exact absurd rfl hbounded.ne_done
      · exact hplace
    · rintro rfl
      exact at?_compile_codeLength p

/-- **Only a loop leads back.** -/
theorem back_compile (h : p.compile.at? place = some instruction)
    (htarget : target ∈ instruction.targets) (hle : target ≤ place) :
    instruction = .jump target ∧ ∃ l ∈ p.loops 0, l.head = target ∧ l.back = place := by
  rcases bounded_or_last h with hbounded | ⟨-, rfl⟩
  · exact hbounded.back target htarget hle
  · cases htarget

theorem standsIn_compile {l : Loop} (hl : l ∈ p.loops 0) : l.StandsIn p.compile :=
  (sealed_compile p).standing p.compile (holds_compile p).left l hl

/-- Once or more: there is one round before the loop. -/
example : (repetition parent 1 none true).loops 0 = [⟨parent, true, 1⟩] ∧
    (repetition parent 1 none true).compile.instructions =
      #[.parent, .split 2 4, .parent, .jump 1, .done] :=
  ⟨rfl, rfl⟩

end

end Pattern

end TreeRules
