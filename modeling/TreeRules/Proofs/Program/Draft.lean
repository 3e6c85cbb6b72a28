/-
Writing a program from front to back.

Where a choice leads is known only once the code behind it has been written.  A writer that goes
through the pattern once leaves the place of such an instruction open, and fills it in afterwards.
Captures are declared on the way, and a test is given the slots that the names around it have by
then.

`Writes` says that a writer leaves no place open, and puts behind what is there the code that stands
at that place.  Each way of writing has one lemma, so that what is written for a pattern is a matter
of its shape: it is the program of the pattern.
-/
import Mathlib.Logic.Function.Iterate
import TreeRules.Proofs.Matching.Code
import TreeRules.Proofs.Pattern.Kinds

namespace TreeRules

/-- A program that is being written. -/
structure Draft where
  /-- The instructions so far, and `none` where a place has been left open. -/
  instructions : List (Option Instruction)
  captures : List CaptureSlot

namespace Draft

/-- The place of the next instruction. -/
def length (d : Draft) : Nat := d.instructions.length

/-- Writes an instruction. -/
def push (d : Draft) (instruction : Instruction) : Draft :=
  { d with instructions := d.instructions ++ [some instruction] }

/-- Leaves a place open. -/
def pushOpen (d : Draft) : Draft := { d with instructions := d.instructions ++ [none] }

/-- Writes an instruction at a place that is there already. -/
def fill (d : Draft) (place : Nat) (instruction : Instruction) : Draft :=
  { d with instructions := d.instructions.set place (some instruction) }

/-- Writes an instruction at each of the places. -/
def fillAll (d : Draft) (places : List Nat) (instruction : Nat → Instruction) : Draft :=
  places.foldl (fun d place => d.fill place (instruction place)) d

/-- Declares a name. -/
def declare (d : Draft) (name : String) (kind : CaptureKind) : Draft :=
  { d with captures := Pattern.declare name kind d.captures }

/-- Writes the same `count` times. -/
def copies (write : Draft → Draft) (d : Draft) : Nat → Draft
  | 0 => d
  | count + 1 => copies write (write d) count

/-- Writes the same `count` times, and leaves a place open before each.  The places come with the
draft. -/
def openCopies (write : Draft → Draft) (d : Draft) : Nat → Draft × List Nat
  | 0 => (d, [])
  | count + 1 =>
    let others := openCopies write (write d.pushOpen) count
    (others.1, d.length :: others.2)

/-- Writes the same `count` times, with a choice before each to go on at the end instead. -/
def optionalCopies (write : Draft → Draft) (greedy : Bool) (d : Draft) (count : Nat) : Draft :=
  let written := d.openCopies write count
  written.1.fillAll written.2 fun place => Pattern.choice greedy (place + 1) written.1.length

/-- Writes something, with a choice before it and the jump back to the choice behind it. -/
def loop (write : Draft → Draft) (greedy : Bool) (d : Draft) : Draft :=
  let written := (write d.pushOpen).push (.jump d.length)
  written.fill d.length (Pattern.choice greedy (d.length + 1) written.length)

/-- Writes something, with a choice before it to go on behind it, and leaves a place open there. -/
def branch (write : Draft → Draft) (d : Draft) : Draft :=
  let written := (write d.pushOpen).pushOpen
  written.fill d.length (.split (d.length + 1) written.length)

end Draft

namespace Pattern

mutual

/-- Writes the code of a pattern, which lies within captures with the slots `active`. -/
def write (repeated : Bool) (active : List Nat) (axis : Axis) (d : Draft) : Pattern → Draft
  | test asked => d.push (.find axis asked active)
  | sequence steps => writeSteps repeated active axis d steps
  | alternation branches =>
    let written := writeBranches repeated active axis d branches
    written.1.fillAll written.2 fun _ => .jump written.1.length
  | repetition body min max greedy =>
    let once := fun d => write true active axis d body
    let d := d.copies once min
    match max with
    | some max => d.optionalCopies once greedy (max - min)
    | none => d.loop once greedy
  | capture name body =>
    let d := d.declare name (if !repeated && body.consumesExactlyOne then .single else .multiple)
    write repeated (active ++ [(slotNames d.captures).idxOf name]) axis d body
  | anchor place => d.push (.check place)
  | parent => d.push .parent

/-- Writes the code of some steps. -/
def writeSteps (repeated : Bool) (active : List Nat) (axis : Axis) (d : Draft) :
    List (Option Axis × Pattern) → Draft
  | [] => d
  | (own, step) :: steps =>
    writeSteps repeated active axis (write repeated active (own.getD axis) d step) steps

/-- Writes the code of some branches, and leaves the places open from where each but the last goes
on at the end.  These come with the draft. -/
def writeBranches (repeated : Bool) (active : List Nat) (axis : Axis) (d : Draft) :
    List Pattern → Draft × List Nat
  | [] => (d, [])
  | [branch] => (write repeated active axis d branch, [])
  | branch :: branches =>
    let first := d.branch fun d => write repeated active axis d branch
    let others := writeBranches repeated active axis first branches
    (others.1, (first.length - 1) :: others.2)

end

/-- The program of a pattern, written from front to back. -/
def written (p : Pattern) : Draft := (p.write false [] .child ⟨[], []⟩).push .done

end Pattern

/-! ### Filling in -/

namespace Draft

/-- The draft with some code behind it, and with these captures. -/
def extend (d : Draft) (code : List Instruction) (captures : List CaptureSlot) : Draft :=
  { instructions := d.instructions ++ code.map some, captures }

variable {d : Draft} {code code' : List Instruction} {captures captures' : List CaptureSlot}
  {instruction : Instruction} {place : Nat}

theorem extend_nil (d : Draft) : d.extend [] d.captures = d := by
  simp [extend]

theorem extend_extend : (d.extend code captures).extend code' captures' =
    d.extend (code ++ code') captures' := by
  simp [extend]

theorem push_extend : (d.extend code captures).push instruction =
    d.extend (code ++ [instruction]) captures := by
  simp [extend, push]

theorem length_extend : (d.extend code captures).length = d.length + code.length := by
  simp [extend, length]

theorem length_pushOpen : d.pushOpen.length = d.length + 1 := by
  simp [pushOpen, length]

theorem length_fillAll (d : Draft) (places : List Nat) (instruction : Nat → Instruction) :
    (d.fillAll places instruction).length = d.length := by
  induction places generalizing d with
  | nil => rfl
  | cons place places ih =>
      show ((d.fill place (instruction place)).fillAll places instruction).length = d.length
      rw [ih]
      simp [fill, length]

theorem fill_pushOpen (h : place < d.length) :
    d.pushOpen.fill place instruction = (d.fill place instruction).pushOpen := by
  simp only [pushOpen, fill, List.set_append_left _ _ h]

/-- A place that was left open, filled in when more has been written. -/
theorem fill_extend_pushOpen : (d.pushOpen.extend code captures).fill d.length instruction =
    d.extend (instruction :: code) captures := by
  simp [extend, pushOpen, fill, length]

/-- It does not matter when a place is filled in. -/
theorem fillAll_cons (d : Draft) (place : Nat) (places : List Nat)
    (instruction : Nat → Instruction) :
    d.fillAll (place :: places) instruction =
      (d.fillAll places instruction).fill place (instruction place) := by
  induction places generalizing d with
  | nil => rfl
  | cons next places ih =>
      have hswap : (d.fill place (instruction place)).fill next (instruction next) =
          (d.fill next (instruction next)).fill place (instruction place) := by
        by_cases hsame : place = next
        · rw [hsame]
        · simp only [fill, List.set_comm _ _ hsame]
      show ((d.fill place (instruction place)).fill next (instruction next)).fillAll places
        instruction = _
      rw [hswap]
      exact ih _

/-! ### Ways of writing -/

/-- What is written to a draft is the code for that place, and names are declared in this way.  A
test within it is given the slots that the names have among `names`. -/
structure Writes (names : List String) (write : Draft → Draft) (code : Nat → List Instruction)
    (length : Nat) (grow : List CaptureSlot → List CaptureSlot) : Prop where
  length_code : ∀ start, (code start).length = length
  /-- What has been declared keeps its slot. -/
  keeps : ∀ slots, Pattern.slotNames slots <+: Pattern.slotNames (grow slots)
  write_eq : ∀ d : Draft, Pattern.slotNames (grow d.captures) <+: names →
    write d = d.extend (code d.length) (grow d.captures)

namespace Writes

variable {names : List String} {write write' : Draft → Draft} {code code' : Nat → List Instruction}
  {length length' : Nat} {grow grow' : List CaptureSlot → List CaptureSlot}

/-- One thing is written behind another. -/
theorem append (h : Writes names write code length grow)
    (h' : Writes names write' code' length' grow') :
    Writes names (fun d => write' (write d)) (fun start => code start ++ code' (start + length))
      (length + length') fun slots => grow' (grow slots) where
  length_code := by
    intro start
    rw [List.length_append, h.length_code, h'.length_code]
  keeps := fun slots => (h.keeps slots).trans (h'.keeps (grow slots))
  write_eq := by
    intro d hnames
    have hfirst := h.write_eq d ((h'.keeps _).trans hnames)
    rw [hfirst, h'.write_eq _ hnames, extend_extend, length_extend, h.length_code]
    rfl

section

variable (h : Writes names write code length grow)

include h

theorem keeps_iterate (count : Nat) :
    ∀ slots, Pattern.slotNames slots <+: Pattern.slotNames (grow^[count] slots) := by
  induction count with
  | zero => exact fun slots => List.prefix_refl _
  | succ count ih => exact fun slots => (h.keeps slots).trans (ih (grow slots))

/-- Behind a place that is left open the code stands one place further on. -/
theorem write_pushOpen (hnames : Pattern.slotNames (grow d.captures) <+: names) :
    write d.pushOpen = d.pushOpen.extend (code (d.length + 1)) (grow d.captures) := by
  rw [← length_pushOpen]
  exact h.write_eq d.pushOpen hnames

theorem loop (greedy : Bool) :
    Writes names (loop write greedy) (Pattern.loop code length greedy) (length + 2) grow where
  length_code := by
    intro start
    simp [Pattern.loop, h.length_code]
  keeps := h.keeps
  write_eq := by
    intro d hnames
    have hend : d.length + 1 + (length + 1) = d.length + length + 2 := by omega
    rw [Draft.loop, h.write_pushOpen hnames, push_extend, fill_extend_pushOpen, length_extend,
      length_pushOpen, List.length_append, h.length_code, List.length_singleton, hend]
    rfl

theorem branch_eq (hnames : Pattern.slotNames (grow d.captures) <+: names) :
    d.branch write = (d.extend (.split (d.length + 1) (d.length + length + 2) ::
      code (d.length + 1)) (grow d.captures)).pushOpen := by
  have hend : d.length + 1 + length + 1 = d.length + length + 2 := by omega
  rw [branch, h.write_pushOpen hnames, length_pushOpen, length_extend, length_pushOpen,
    h.length_code, hend, fill_pushOpen, fill_extend_pushOpen]
  rw [length_extend, length_pushOpen]
  omega

theorem copies (count : Nat) :
    Writes names (copies write · count) (Pattern.copies code length · count) (count * length)
      grow^[count] where
  length_code := Pattern.length_copies h.length_code count
  keeps := h.keeps_iterate count
  write_eq := by
    induction count with
    | zero => exact fun d _ => d.extend_nil.symm
    | succ count ih =>
        intro d hnames
        have hfirst := h.write_eq d ((h.keeps_iterate count _).trans hnames)
        rw [Draft.copies]
        refine (ih (write d) (by rw [hfirst]; exact hnames)).trans ?_
        rw [hfirst, extend_extend, length_extend, h.length_code]
        rfl

/-- Wherever the choices are to lead, filling them in gives the copies with these choices. -/
theorem openCopies_eq (finish : Nat) (greedy : Bool) (count : Nat) :
    ∀ d : Draft, Pattern.slotNames (grow^[count] d.captures) <+: names →
      (d.openCopies write count).1.fillAll (d.openCopies write count).2
          (fun place => Pattern.choice greedy (place + 1) finish) =
        d.extend (Pattern.optionalCopies code length finish greedy d.length count)
          (grow^[count] d.captures) := by
  induction count with
  | zero => exact fun d _ => d.extend_nil.symm
  | succ count ih =>
      intro d hnames
      have hfirst := h.write_pushOpen ((h.keeps_iterate count _).trans hnames)
      have hothers := ih (write d.pushOpen) (by rw [hfirst]; exact hnames)
      rw [openCopies, fillAll_cons, hothers, hfirst, extend_extend, fill_extend_pushOpen,
        length_extend, length_pushOpen, h.length_code]
      rfl

theorem optionalCopies (greedy : Bool) (count : Nat) :
    Writes names (optionalCopies write greedy · count)
      (fun start => Pattern.optionalCopies code length (start + count * (length + 1)) greedy start
        count) (count * (length + 1)) grow^[count] where
  length_code := fun start => Pattern.length_optionalCopies h.length_code _ greedy count start
  keeps := h.keeps_iterate count
  write_eq := by
    intro d hnames
    have hfilled := fun finish => h.openCopies_eq finish greedy count d hnames
    -- filling in does not change the length, so it is known where the last copy ends
    have hend : (d.openCopies write count).1.length = d.length + count * (length + 1) := by
      have hsame := congrArg Draft.length (hfilled 0)
      rwa [length_fillAll, length_extend, Pattern.length_optionalCopies h.length_code] at hsame
    rw [Draft.optionalCopies, hend, hfilled]

end

end Writes

end Draft

/-! ### Patterns -/

namespace Pattern

open Draft

variable {names : List String}

/-- Going through the body of a repetition again declares nothing new. -/
theorem iterate_declareCaptures (body : Pattern) (slots : List CaptureSlot) (count : Nat) :
    (body.declareCaptures true ·)^[count + 1] slots = body.declareCaptures true slots := by
  induction count with
  | zero => rfl
  | succ count ih => rw [Function.iterate_succ_apply', ih, declareCaptures_twice]

theorem declareCaptures_repetition_some (repeated : Bool) (slots : List CaptureSlot)
    (body : Pattern) (min max : Nat) (greedy : Bool) :
    (repetition body min (some max) greedy).declareCaptures repeated slots =
      (body.declareCaptures true ·)^[max - min] ((body.declareCaptures true ·)^[min] slots) := by
  rw [declareCaptures, ← Function.iterate_add_apply]
  split
  · rename_i hnever
    obtain ⟨rfl, rfl⟩ : min = 0 ∧ max = 0 := by simpa using hnever
    rfl
  · rename_i hsome
    have hne : max - min + min ≠ 0 := by
      intro hzero
      refine hsome ?_
      obtain ⟨rfl, rfl⟩ : min = 0 ∧ max = 0 := by omega
      rfl
    obtain ⟨count, hcount⟩ := Nat.exists_eq_succ_of_ne_zero hne
    rw [hcount, iterate_declareCaptures]

theorem declareCaptures_repetition_none (repeated : Bool) (slots : List CaptureSlot)
    (body : Pattern) (min : Nat) (greedy : Bool) :
    (repetition body min none greedy).declareCaptures repeated slots =
      body.declareCaptures true ((body.declareCaptures true ·)^[min] slots) := by
  have hagain := iterate_declareCaptures body slots min
  rw [Function.iterate_succ_apply'] at hagain
  rw [declareCaptures, if_neg (by simp), hagain]

mutual

/-- **What is written for a pattern is its code.** -/
theorem write_eq : ∀ (p : Pattern) (repeated : Bool) (active : List Nat) (axis : Axis) (d : Draft),
    slotNames (p.declareCaptures repeated d.captures) <+: names →
      p.write repeated active axis d = d.extend (code names active axis d.length p)
        (p.declareCaptures repeated d.captures)
  | test _, _, _, _, d, _ | anchor _, _, _, _, d, _ | parent, _, _, _, d, _ => by
      rw [write, code, declareCaptures]
      rfl
  | sequence steps, repeated, active, axis, d, hnames => by
      rw [declareCaptures] at hnames ⊢
      rw [write, code]
      exact writeSteps_eq steps repeated active axis d hnames
  | alternation branches, repeated, active, axis, d, hnames => by
      rw [declareCaptures] at hnames ⊢
      have hfilled := fun finish => writeBranches_eq branches repeated active axis finish d hnames
      -- any target tells where the last branch ends, and then that place is the target
      have hend : (writeBranches repeated active axis d branches).1.length =
          d.length + branchesLength branches + 2 * (branches.length - 1) := by
        have hsame := congrArg Draft.length (hfilled 0)
        rwa [length_fillAll, length_extend, length_codeOfBranches, ← Nat.add_assoc] at hsame
      rw [write, code, hend, hfilled]
  | repetition body min max greedy, repeated, active, axis, d, hnames => by
      have hbody : Writes names (body.write true active axis ·) (code names active axis · body)
          body.codeLength (body.declareCaptures true ·) :=
        ⟨length_code names body active axis, (prefix_slotNames_declareCaptures true · body),
          write_eq body true active axis⟩
      cases max with
      | some max =>
          rw [declareCaptures_repetition_some] at hnames ⊢
          rw [write, code]
          exact ((hbody.copies min).append (hbody.optionalCopies greedy (max - min))).write_eq d
            hnames
      | none =>
          rw [declareCaptures_repetition_none] at hnames ⊢
          rw [write, code]
          exact ((hbody.copies min).append (hbody.loop greedy)).write_eq d hnames
  | capture name body, repeated, active, axis, d, hnames => by
      rw [declareCaptures] at hnames ⊢
      -- names that are declared later come behind, so the name has its slot already
      have hslot := ((prefix_slotNames_declareCaptures repeated _ body).trans
        hnames).idxOf_eq_of_mem (subset_slotNames_declare name _ d.captures List.mem_cons_self)
      rw [write, code, ← hslot]
      exact write_eq body repeated _ axis (d.declare name _) hnames

theorem writeSteps_eq : ∀ (steps : List (Option Axis × Pattern)) (repeated : Bool)
    (active : List Nat) (axis : Axis) (d : Draft),
    slotNames (declareInSteps repeated d.captures steps) <+: names →
      writeSteps repeated active axis d steps =
        d.extend (codeOfSteps names active axis d.length steps)
          (declareInSteps repeated d.captures steps)
  | [], _, _, _, d, _ => by
      rw [writeSteps, codeOfSteps, declareInSteps]
      exact d.extend_nil.symm
  | (own, step) :: steps, repeated, active, axis, d, hnames => by
      rw [declareInSteps] at hnames ⊢
      have hfirst := write_eq step repeated active (own.getD axis) d
        ((prefix_slotNames_declareInSteps repeated _ steps).trans hnames)
      rw [writeSteps, codeOfSteps, hfirst, writeSteps_eq steps repeated active axis _ hnames,
        extend_extend, length_extend, length_code]
      rfl

/-- Wherever the branches are to go on, filling it in gives their code. -/
theorem writeBranches_eq : ∀ (branches : List Pattern) (repeated : Bool) (active : List Nat)
    (axis : Axis) (finish : Nat) (d : Draft),
    slotNames (declareInBranches repeated d.captures branches) <+: names →
      (writeBranches repeated active axis d branches).1.fillAll
          (writeBranches repeated active axis d branches).2 (fun _ => .jump finish) =
        d.extend (codeOfBranches names active axis d.length finish branches)
          (declareInBranches repeated d.captures branches)
  | [], _, _, _, _, d, _ => by
      rw [writeBranches, codeOfBranches, declareInBranches]
      exact d.extend_nil.symm
  | [branch], repeated, active, axis, finish, d, hnames => by
      rw [declareInBranches, declareInBranches] at hnames ⊢
      rw [writeBranches, codeOfBranches]
      exact write_eq branch repeated active axis d hnames
  | branch :: next :: branches, repeated, active, axis, finish, d, hnames => by
      rw [declareInBranches] at hnames ⊢
      have hwrites : Writes names (branch.write repeated active axis ·)
          (code names active axis · branch) branch.codeLength
            (branch.declareCaptures repeated ·) :=
        ⟨length_code names branch active axis, (prefix_slotNames_declareCaptures repeated · branch),
          write_eq branch repeated active axis⟩
      have hfirst := hwrites.branch_eq
        ((prefix_slotNames_declareInBranches repeated _ _).trans hnames)
      have hplace : d.length + (branch.codeLength + 1) + 1 = d.length + branch.codeLength + 2 := by
        omega
      rw [writeBranches, fillAll_cons, hfirst,
        writeBranches_eq (next :: branches) repeated active axis finish _ hnames,
        length_pushOpen, Nat.add_sub_cancel, fill_extend_pushOpen, extend_extend, length_extend,
        List.length_cons, length_code, hplace, codeOfBranches_cons_cons]
      · rfl
      · exact List.cons_ne_nil next branches

end

/-- Three branches: the choices are in place, and it is open where the first two go on. -/
example : writeBranches false [] .child ⟨[], []⟩ [parent, parent, parent] =
    (⟨[some (.split 1 3), some .parent, none, some (.split 4 6), some .parent, none,
      some .parent], []⟩, [2, 5]) := rfl

/-- **No place is left open**, and what has been written is the program of the pattern. -/
theorem written_eq (p : Pattern) :
    p.written = ⟨p.compile.instructions.toList.map some, p.compile.captures⟩ := by
  have hcode := write_eq p false [] .child ⟨[], []⟩ (List.prefix_refl _)
  rw [written, hcode, push_extend]
  rfl

end Pattern

end TreeRules
