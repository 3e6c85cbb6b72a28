/-
Code does what its pattern means.

A stretch of code realises a meaning if a thread that enters it on some way yields, one after
another, what the threads yield that leave it on the ways which the meaning gives.  Stretches that
follow one another realise meanings that follow one another, and each way of putting code together
has one lemma.  The code of a pattern is then a matter of the pattern's shape.

Only the loop needs more: its jump goes back.  A way comes to the head of the loop again with more
nodes consumed than before, so the induction there is on how many it can still consume.
-/
import TreeRules.Proofs.Matching.Machine
import TreeRules.Proofs.Matching.Way
import TreeRules.Proofs.Pattern.Proper

namespace TreeRules

/-! ### Code in a program -/

namespace Program

variable {program : Program} {place : Nat} {code code' : List Instruction}
  {instruction : Instruction}

/-- The code stands in the program at that place. -/
def Holds (program : Program) (place : Nat) (code : List Instruction) : Prop :=
  ∀ i instruction, code[i]? = some instruction → program.at? (place + i) = some instruction

theorem Holds.head (h : program.Holds place (instruction :: code)) :
    program.at? place = some instruction :=
  h 0 instruction rfl

theorem Holds.tail (h : program.Holds place (instruction :: code)) :
    program.Holds (place + 1) code := by
  intro i next hi
  rw [Nat.add_assoc, Nat.add_comm 1 i]
  exact h (i + 1) next hi

theorem Holds.left (h : program.Holds place (code ++ code')) : program.Holds place code := by
  intro i next hi
  refine h i next ?_
  rw [List.getElem?_append_left (List.getElem?_eq_some_iff.mp hi).1]
  exact hi

theorem Holds.right (h : program.Holds place (code ++ code')) :
    program.Holds (place + code.length) code' := by
  intro i next hi
  rw [Nat.add_assoc]
  refine h (code.length + i) next ?_
  rw [List.getElem?_append_right (Nat.le_add_right _ _), Nat.add_sub_cancel_left]
  exact hi

end Program

namespace Pattern

/-! ### The length of code -/

theorem length_copies {code : Nat → List Instruction} {length : Nat}
    (hcode : ∀ start, (code start).length = length) (count : Nat) :
    ∀ start, (copies code length start count).length = count * length := by
  induction count with
  | zero => intro start; simp [copies]
  | succ count ih =>
      intro start
      rw [copies, List.length_append, hcode, ih, Nat.succ_mul, Nat.add_comm]

theorem length_optionalCopies {code : Nat → List Instruction} {length : Nat}
    (hcode : ∀ start, (code start).length = length) (finish : Nat) (greedy : Bool) (count : Nat) :
    ∀ start, (optionalCopies code length finish greedy start count).length =
      count * (length + 1) := by
  induction count with
  | zero => intro start; simp [optionalCopies]
  | succ count ih =>
      intro start
      rw [optionalCopies, List.length_append, List.length_cons, hcode, ih, Nat.succ_mul,
        Nat.add_comm]

/-- A branch that is followed by others comes with a choice before it and a jump after it. -/
theorem codeOfBranches_cons_cons (names : List String) (active : List Nat) (axis : Axis)
    (start finish : Nat) (branch next : Pattern) (branches : List Pattern) :
    codeOfBranches names active axis start finish (branch :: next :: branches) =
      .split (start + 1) (start + codeLength branch + 2) ::
        code names active axis (start + 1) branch ++
        .jump finish ::
          codeOfBranches names active axis (start + codeLength branch + 2) finish
            (next :: branches) := by
  rw [codeOfBranches]
  exact List.cons_ne_nil next branches

/-- The length of the code for the times that a body of length `length` may be repeated beyond
`min`. -/
def extraLength (length min : Nat) : Option Nat → Nat
  | some max => (max - min) * (length + 1)
  | none => length + 2

/-- The code for the times that a body may be repeated beyond `min`. -/
def extraCode (code : Nat → List Instruction) (length : Nat) (greedy : Bool) (start min : Nat) :
    Option Nat → List Instruction
  | some max =>
    optionalCopies code length (start + (max - min) * (length + 1)) greedy start (max - min)
  | none => loop code length greedy start

theorem codeLength_repetition (body : Pattern) (min : Nat) (max : Option Nat) (greedy : Bool) :
    codeLength (.repetition body min max greedy) =
      min * body.codeLength + extraLength body.codeLength min max := by
  cases max <;> rw [codeLength, extraLength]

theorem code_repetition (names : List String) (active : List Nat) (axis : Axis) (start : Nat)
    (body : Pattern) (min : Nat) (max : Option Nat) (greedy : Bool) :
    code names active axis start (.repetition body min max greedy) =
      copies (code names active axis · body) body.codeLength start min ++
        extraCode (code names active axis · body) body.codeLength greedy
          (start + min * body.codeLength) min max := by
  cases max <;> rw [code, extraCode]

theorem length_extraCode {code : Nat → List Instruction} {length : Nat}
    (hcode : ∀ start, (code start).length = length) (greedy : Bool) (start min : Nat)
    (max : Option Nat) :
    (extraCode code length greedy start min max).length = extraLength length min max := by
  cases max with
  | none => simp [extraCode, extraLength, loop, hcode]
  | some max => rw [extraCode, extraLength, length_optionalCopies hcode]

mutual

theorem length_code (names : List String) :
    ∀ (p : Pattern) (active : List Nat) (axis : Axis) (start : Nat),
      (code names active axis start p).length = codeLength p
  | test _, _, _, _ => by simp [code, codeLength]
  | anchor _, _, _, _ => by simp [code, codeLength]
  | parent, _, _, _ => by simp [code, codeLength]
  | sequence steps, active, axis, start => by
      rw [code, codeLength]
      exact length_codeOfSteps names steps active axis start
  | alternation branches, active, axis, start => by
      rw [code, codeLength]
      exact length_codeOfBranches names branches active axis start _
  | repetition body min max greedy, active, axis, start => by
      have hcode := length_code names body active axis
      rw [code_repetition, codeLength_repetition, List.length_append, length_copies hcode,
        length_extraCode hcode]
  | capture name body, active, axis, start => by
      rw [code, codeLength]
      exact length_code names body _ axis start

theorem length_codeOfSteps (names : List String) :
    ∀ (steps : List (Option Axis × Pattern)) (active : List Nat) (axis : Axis) (start : Nat),
      (codeOfSteps names active axis start steps).length = stepsLength steps
  | [], _, _, _ => by rw [codeOfSteps, stepsLength]; rfl
  | (own, step) :: steps, active, axis, start => by
      rw [codeOfSteps, stepsLength, List.length_append, length_code names step,
        length_codeOfSteps names steps]

theorem length_codeOfBranches (names : List String) :
    ∀ (branches : List Pattern) (active : List Nat) (axis : Axis) (start finish : Nat),
      (codeOfBranches names active axis start finish branches).length =
        branchesLength branches + 2 * (branches.length - 1)
  | [], _, _, _, _ => by rw [codeOfBranches, branchesLength]; rfl
  | [branch], active, axis, start, finish => by
      rw [codeOfBranches, branchesLength, branchesLength, length_code names branch]
      rfl
  | branch :: next :: branches, active, axis, start, finish => by
      rw [codeOfBranches_cons_cons, branchesLength, List.cons_append, List.length_cons,
        List.length_append, List.length_cons, length_code names branch,
        length_codeOfBranches names (next :: branches)]
      simp only [List.length_cons]
      omega

end

end Pattern

/-! ### Threads and ways -/

/-- The visit that records a node in the slots of its names. -/
def Consumed.visit (names : List String) (c : Consumed) : Visit :=
  { node := c.node, slots := c.names.map names.idxOf }

/-- The thread that has come to a place on a way. -/
def Way.thread (names : List String) (place : Nat) (w : Way) : Thread :=
  { place, here := w.here, trail := w.log.map (Consumed.visit names) }

namespace Search

variable {s : Search} {w : Way}

/-- The names under which the program captures. -/
def names (s : Search) : List String := Pattern.slotNames s.program.captures

theorem slot?_eq (s : Search) (name : String) :
    s.program.slot? name = if name ∈ s.names then some (s.names.idxOf name) else none := by
  have hmap : s.program.slot? name = s.names.findIdx? (· == name) := by
    rw [Program.slot?, names, Pattern.slotNames, List.findIdx?_map]
    rfl
  rw [hmap]
  by_cases hmem : name ∈ s.names
  · rw [if_pos hmem, List.findIdx?_eq_some_of_exists ⟨name, hmem, by simp⟩]
    rfl
  · rw [if_neg hmem, List.findIdx?_eq_none_iff]
    intro other hother
    rw [beq_eq_false_iff_ne]
    rintro rfl
    exact hmem hother

/-- A name's slot is among the slots of a visit exactly if the name is among its names. -/
theorem contains_slots_visit {name : String} (hname : name ∈ s.names) (c : Consumed) :
    (c.visit s.names).slots.contains (s.names.idxOf name) = c.names.contains name := by
  rw [Bool.eq_iff_iff, List.contains_iff_mem, List.contains_iff_mem, Consumed.visit, List.mem_map]
  constructor
  · rintro ⟨other, hother, heq⟩
    exact (List.idxOf_inj hname).mp heq.symm ▸ hother
  · intro h
    exact ⟨name, h, rfl⟩

/-- **The slots say what the names say:** both give the node most recently captured. -/
theorem bound_eq (hw : s.Sound s.names w) (name : String) (place : Nat) :
    s.bound name (w.thread s.names place).trail = w.bound name := by
  show s.bound name (w.log.map (Consumed.visit s.names)) = w.bound name
  rw [bound, slot?_eq]
  by_cases hname : name ∈ s.names
  · rw [if_pos hname]
    have hfun : (fun visit : Visit => visit.slots.contains (s.names.idxOf name)) ∘
        Consumed.visit s.names = fun c => c.names.contains name :=
      funext fun c => contains_slots_visit hname c
    simp only [Option.bind_eq_bind, Option.bind_some, List.find?_map, hfun, Way.bound]
    cases w.log.find? fun c => c.names.contains name <;> rfl
  · rw [if_neg hname]
    -- no node can have been captured under a name that has no slot
    have hnone : w.log.find? (fun c => c.names.contains name) = none := by
      rw [List.find?_eq_none]
      intro c hc hmem
      rw [List.contains_iff_mem] at hmem
      exact hname (hw.names c hc hmem)
    rw [Way.bound, hnone]
    rfl

theorem accepts_eq (hf : s.forest.WellFormed) (hw : s.Sound s.names w) (test : NodeTest)
    (place : Nat) (n : NodeId) :
    s.accepts test (w.thread s.names place).trail n =
      (s.toScene.passes test w n && !w.consumed n) := by
  have hpasses : s.passes test (w.thread s.names place).trail n = s.toScene.passes test w n := by
    cases test with
    | reference name =>
        show (s.bound name _).any (s.forest.sameStructure · n) =
          (w.bound name).any (s.forest.sameTree · n)
        rw [bound_eq hw]
        simp only [hf.sameStructure_eq]
    | literal _ => rfl
    | any => rfl
    | predicate _ => rfl
  have hconsumed : (w.thread s.names place).trail.any (·.node == n) = w.consumed n := by
    show (w.log.map (Consumed.visit s.names)).any (·.node == n) = w.consumed n
    rw [List.any_map]
    rfl
  rw [accepts, hpasses, hconsumed]

theorem all_candidates (hf : s.forest.WellFormed) (axis : Axis) (w : Way) :
    (s.candidates axis w.here).all s.forest = s.nearby axis w := by
  unfold candidates Scene.nearby
  cases w.here with
  | none => rfl
  | some n =>
      cases axis with
      | child => rfl
      | descendant =>
          show (s.forest.children n).flatMap s.forest.preorder = (s.forest.preorder n).tail
          rw [hf.preorder_eq n, List.tail_cons]
      | nextSibling => rfl
      | anySibling => rfl

/-! ### Stretches of code -/

/-- A thread that enters the code at `place` on some way yields what the threads yield that leave it
at `after` on the ways that the meaning gives. -/
def Realises (s : Search) (place after : Nat) (meaning : Way → List Way) : Prop :=
  ∀ (w : Way) (yielded : Way → List (List Visit)), s.Sound s.names w →
    (∀ w' ∈ meaning w, s.Yields (w'.thread s.names after) (yielded w')) →
    s.Yields (w.thread s.names place) ((meaning w).flatMap yielded)

/-- The ways that the meaning gives are continuations. -/
def LeadsOn (s : Search) (meaning : Way → List Way) : Prop :=
  ∀ w w', w' ∈ meaning w → s.Leads s.names w w'

variable {place after finish length : Nat} {meaning meaning' : Way → List Way}

theorem realises_nothing (s : Search) (place : Nat) : s.Realises place place fun w => [w] := by
  intro w yielded _ h
  rw [List.flatMap_singleton]
  exact h w (List.mem_singleton.mpr rfl)

/-- Stretches that follow one another. -/
theorem Realises.comp (hf : s.forest.WellFormed) (h : s.Realises place after meaning)
    (hleads : s.LeadsOn meaning) (h' : s.Realises after finish meaning') :
    s.Realises place finish fun w => (meaning w).flatMap meaning' := by
  intro w yielded hw hyields
  rw [List.flatMap_assoc]
  refine h w _ hw fun v hv => h' v yielded ((hleads w v hv).sound hf hw) fun w' hw' => ?_
  exact hyields w' (List.mem_flatMap.mpr ⟨v, hv, hw'⟩)

theorem realises_test (hf : s.forest.WellFormed) {axis : Axis} {asked : NodeTest}
    {active : List String}
    (hcode : s.program.at? place = some (.find axis asked (active.map s.names.idxOf))) :
    s.Realises place (place + 1) (s.mean active axis (.test asked)) := by
  intro w yielded hw h
  have hchoices : ((s.candidates axis w.here).all s.forest).filter
      (s.accepts asked (w.thread s.names place).trail) = s.choices axis asked w := by
    rw [all_candidates hf, Scene.choices]
    exact List.filter_congr fun n _ => accepts_eq hf hw asked place n
  rw [Scene.mean, List.flatMap_map, ← hchoices]
  refine yields_find hf (t := w.thread s.names place) _ hcode fun n hn => ?_
  refine h (w.consume n active) ?_
  rw [Scene.mean, ← hchoices]
  exact List.mem_map_of_mem hn

theorem realises_anchor {anchor : Anchor} {active : List String} {axis : Axis}
    (hcode : s.program.at? place = some (.check anchor)) :
    s.Realises place (place + 1) (s.mean active axis (.anchor anchor)) := by
  intro w yielded _ h
  have hholds : s.holds anchor (w.thread s.names place).here = s.toScene.holds anchor w := by
    cases anchor <;> rfl
  have hyields : s.Yields (w.thread s.names place)
      (if s.holds anchor (w.thread s.names place).here then yielded w else []) := by
    refine yields_check hcode fun hc => ?_
    rw [hholds] at hc
    refine h w ?_
    rw [Scene.mean, if_pos hc]
    exact List.mem_singleton.mpr rfl
  rw [hholds] at hyields
  rw [Scene.mean]
  by_cases hc : s.toScene.holds anchor w = true
  · rw [if_pos hc] at hyields ⊢
    rwa [List.flatMap_singleton]
  · rw [if_neg hc] at hyields ⊢
    exact hyields

theorem realises_parent {active : List String} {axis : Axis}
    (hcode : s.program.at? place = some .parent) :
    s.Realises place (place + 1) (s.mean active axis .parent) := by
  intro w yielded _ h
  rw [Scene.mean, List.flatMap_map]
  refine yields_parent (t := w.thread s.names place) _ hcode fun p hp => ?_
  refine h { w with here := some p } ?_
  rw [Scene.mean]
  exact List.mem_map_of_mem (Option.mem_toList.mpr hp)

/-! ### Choices and repetitions -/

theorem yields_choice {t : Thread} {greedy : Bool} {body : Nat} {more stop : List (List Visit)}
    (hcode : s.program.at? t.place = some (Pattern.choice greedy body finish))
    (hmore : s.Yields { t with place := body } more)
    (hstop : s.Yields { t with place := finish } stop) :
    s.Yields t (if greedy then more ++ stop else stop ++ more) := by
  cases greedy with
  | true => exact yields_split hcode hmore hstop
  | false => exact yields_split hcode hstop hmore

theorem realises_copies (hf : s.forest.WellFormed) {code : Nat → List Instruction}
    {once : Way → List Way} (hlength : ∀ start, (code start).length = length)
    (honce : ∀ start, s.program.Holds start (code start) →
      s.Realises start (start + length) once)
    (hleads : s.LeadsOn once) (count : Nat) :
    ∀ start, s.program.Holds start (Pattern.copies code length start count) →
      s.Realises start (start + count * length) (Way.rounds once count) := by
  induction count with
  | zero =>
      intro start _
      rw [Nat.zero_mul, Nat.add_zero]
      exact realises_nothing s start
  | succ count ih =>
      intro start hcode
      rw [Pattern.copies] at hcode
      have hrest := hcode.right
      rw [hlength] at hrest
      have hfinish : start + (count + 1) * length = start + length + count * length := by
        rw [Nat.succ_mul]
        omega
      rw [hfinish]
      exact (honce start hcode.left).comp hf hleads (ih (start + length) hrest)

theorem realises_optionalCopies {code : Nat → List Instruction} {once : Way → List Way}
    {greedy : Bool} (hf : s.forest.WellFormed) (hlength : ∀ start, (code start).length = length)
    (honce : ∀ start, s.program.Holds start (code start) →
      s.Realises start (start + length) once)
    (hleads : s.LeadsOn once) (count : Nat) :
    ∀ start, start + count * (length + 1) = finish →
      s.program.Holds start (Pattern.optionalCopies code length finish greedy start count) →
      s.Realises start finish (Way.upTo once greedy count) := by
  induction count with
  | zero =>
      intro start hfinish _
      rw [Nat.zero_mul, Nat.add_zero] at hfinish
      subst hfinish
      exact realises_nothing s start
  | succ count ih =>
      intro start hfinish hcode w yielded hw h
      rw [Pattern.optionalCopies] at hcode
      have hbody : s.Realises (start + 1) finish
          fun w => (once w).flatMap (Way.upTo once greedy count) := by
        refine (honce _ hcode.left.tail).comp hf hleads (ih (start + 1 + length) ?_ ?_)
        · rw [← hfinish, Nat.succ_mul]
          omega
        · have hrest := hcode.right
          rwa [List.length_cons, hlength, Nat.add_comm length 1, ← Nat.add_assoc] at hrest
      rw [Way.upTo] at h ⊢
      have hmore := hbody w yielded hw fun w' hw' => h w' (by cases greedy <;> simp [hw'])
      have hstop := h w (by cases greedy <;> simp)
      have hchoice := yields_choice (t := w.thread s.names start) hcode.left.head hmore hstop
      cases greedy with
      | true => simpa using hchoice
      | false => simpa using hchoice

/-- **The loop.**  Each time round the way has more nodes, so the induction is on how many nodes it
may still consume. -/
theorem realises_loop {code : Nat → List Instruction} {once : Way → List Way} {greedy : Bool}
    (hf : s.forest.WellFormed) (hlength : ∀ start, (code start).length = length)
    (honce : ∀ start, s.program.Holds start (code start) →
      s.Realises start (start + length) once)
    (hleads : s.LeadsOn once) (hlt : ∀ w w', w' ∈ once w → w.log.length < w'.log.length)
    (start : Nat) (hcode : s.program.Holds start (Pattern.loop code length greedy start)) :
    s.Realises start (start + length + 2) (Way.upTo once greedy s.mostRounds) := by
  rw [Pattern.loop] at hcode
  have hsound : ∀ w w', s.Sound s.names w → w' ∈ once w → s.Sound s.names w' :=
    fun w w' hw h => (hleads w w' h).sound hf hw
  have hjump : s.program.at? (start + 1 + length) = some (.jump start) := by
    have := hcode.right.head
    rwa [List.length_cons, hlength, Nat.add_comm length 1, ← Nat.add_assoc] at this
  intro w yielded hw h
  induction hk : s.mostRounds - w.log.length using Nat.strongRecOn generalizing w with
  | _ k ih =>
      have hround : s.Yields (w.thread s.names (start + 1))
          ((once w).flatMap fun v =>
            (Way.upTo once greedy s.mostRounds v).flatMap yielded) := by
        refine honce _ hcode.left.tail w _ hw fun v hv => yields_jump hjump ?_
        have hvs := hsound w v hw hv
        have := hlt w v hv
        have := hvs.length_le
        refine ih _ (by omega) v hvs (fun w' hw' => h w' ?_) rfl
        rw [Scene.upTo_mostRounds greedy hsound hlt hw]
        have hmem : w' ∈ (once w).flatMap (Way.upTo once greedy s.mostRounds) :=
          List.mem_flatMap.mpr ⟨v, hv, hw'⟩
        cases greedy <;> simp [hmem]
      rw [Scene.upTo_mostRounds greedy hsound hlt hw] at h ⊢
      have hstop := h w (by cases greedy <;> simp)
      have hchoice := yields_choice (t := w.thread s.names start) hcode.left.head hround hstop
      cases greedy with
      | true => simpa [List.flatMap_assoc] using hchoice
      | false => simpa [List.flatMap_assoc] using hchoice

theorem realises_repetition (hf : s.forest.WellFormed) {code : Nat → List Instruction}
    {active : List String} {axis : Axis} {body : Pattern} {min : Nat} {max : Option Nat}
    {greedy : Bool} (hlength : ∀ start, (code start).length = length)
    (honce : ∀ start, s.program.Holds start (code start) →
      s.Realises start (start + length) (s.mean active axis body))
    (hleads : s.LeadsOn (s.mean active axis body)) (hproper : max = none → body.canBeEmpty = false)
    (start : Nat)
    (hcode : s.program.Holds start (Pattern.copies code length start min ++
      Pattern.extraCode code length greedy (start + min * length) min max)) :
    s.Realises start (start + (min * length + Pattern.extraLength length min max))
      (s.mean active axis (.repetition body min max greedy)) := by
  have hextra := hcode.right
  rw [Pattern.length_copies hlength] at hextra
  have hrounds : s.LeadsOn (Way.rounds (s.mean active axis body) min) :=
    fun w _ h => Scene.leads_of_mem_rounds hleads min w h
  rw [Scene.mean_repetition, ← Nat.add_assoc]
  refine (realises_copies hf hlength honce hleads min start hcode.left).comp hf hrounds ?_
  cases max with
  | some max => exact realises_optionalCopies hf hlength honce hleads _ _ rfl hextra
  | none =>
      refine realises_loop hf hlength honce hleads ?_ _ hextra
      exact fun w w' => Scene.length_lt_of_mem_mean body w w' (hproper rfl)

/-! ### The code of a pattern -/

mutual

/-- **The code of a pattern does what the pattern means.** -/
theorem realises_code (hf : s.forest.WellFormed) :
    ∀ (p : Pattern) (active : List String) (axis : Axis) (start : Nat), p.Proper →
      active ⊆ s.names → p.recorded ⊆ s.names →
      s.program.Holds start (p.code s.names (active.map s.names.idxOf) axis start) →
      s.Realises start (start + p.codeLength) (s.mean active axis p)
  | .test asked, active, axis, start, _, _, _, hcode => by
      rw [Pattern.code] at hcode
      rw [Pattern.codeLength]
      exact realises_test hf hcode.head
  | .anchor anchor, active, axis, start, _, _, _, hcode => by
      rw [Pattern.code] at hcode
      rw [Pattern.codeLength]
      exact realises_anchor hcode.head
  | .parent, active, axis, start, _, _, _, hcode => by
      rw [Pattern.code] at hcode
      rw [Pattern.codeLength]
      exact realises_parent hcode.head
  | .sequence steps, active, axis, start, hproper, hactive, hrec, hcode => by
      rw [Pattern.code] at hcode
      rw [Pattern.Proper] at hproper
      rw [Pattern.recorded] at hrec
      rw [Pattern.codeLength, Scene.mean_sequence]
      exact realises_codeOfSteps hf steps active axis start hproper hactive hrec hcode
  | .alternation branches, active, axis, start, hproper, hactive, hrec, hcode => by
      rw [Pattern.code] at hcode
      rw [Pattern.Proper] at hproper
      rw [Pattern.recorded] at hrec
      rw [Pattern.codeLength, Scene.mean_alternation, ← Nat.add_assoc]
      exact realises_codeOfBranches hf branches active axis start _ hproper.1 hproper.2 hactive
        hrec rfl hcode
  | .repetition body min max greedy, active, axis, start, hproper, hactive, hrec, hcode => by
      rw [Pattern.Proper] at hproper
      rw [Pattern.recorded] at hrec
      by_cases hnever : (min = 0 && max = some 0) = true
      · -- no time at all: there is no code, and the way goes on as it is
        rw [Bool.and_eq_true, decide_eq_true_eq, decide_eq_true_eq] at hnever
        obtain ⟨rfl, rfl⟩ := hnever
        rw [Scene.mean_never, Pattern.codeLength]
        simpa using realises_nothing s start
      · rw [if_neg hnever] at hrec
        have honce : ∀ start,
            s.program.Holds start (body.code s.names (active.map s.names.idxOf) axis start) →
            s.Realises start (start + body.codeLength) (s.mean active axis body) :=
          fun start => realises_code hf body active axis start hproper.2 hactive hrec
        have hleads : s.LeadsOn (s.mean active axis body) :=
          fun w w' => Scene.leads_of_mem_mean hactive body w w' hrec
        rw [Pattern.code_repetition] at hcode
        rw [Pattern.codeLength_repetition]
        exact realises_repetition hf (Pattern.length_code s.names body _ axis) honce hleads
          hproper.1 start hcode
  | .capture name body, active, axis, start, hproper, hactive, hrec, hcode => by
      rw [Pattern.code] at hcode
      rw [Pattern.Proper] at hproper
      rw [Pattern.recorded, List.cons_subset] at hrec
      rw [Pattern.codeLength, Scene.mean_capture]
      have hactive' : active ++ [name] ⊆ s.names :=
        List.append_subset.mpr ⟨hactive, List.cons_subset.mpr ⟨hrec.1, List.nil_subset _⟩⟩
      refine realises_code hf body (active ++ [name]) axis start hproper hactive' hrec.2 ?_
      rwa [List.map_append]

theorem realises_codeOfSteps (hf : s.forest.WellFormed) :
    ∀ (steps : List (Option Axis × Pattern)) (active : List String) (axis : Axis) (start : Nat),
      Pattern.ProperSteps steps → active ⊆ s.names → Pattern.recordedInSteps steps ⊆ s.names →
      s.program.Holds start
        (Pattern.codeOfSteps s.names (active.map s.names.idxOf) axis start steps) →
      s.Realises start (start + Pattern.stepsLength steps) (s.meanSteps active axis steps)
  | [], active, axis, start, _, _, _, _ => by
      rw [Scene.meanSteps_nil, Pattern.stepsLength]
      exact realises_nothing s start
  | (own, step) :: steps, active, axis, start, hproper, hactive, hrec, hcode => by
      rw [Pattern.codeOfSteps] at hcode
      rw [Pattern.ProperSteps] at hproper
      rw [Pattern.recordedInSteps, List.append_subset] at hrec
      have hrest := hcode.right
      rw [Pattern.length_code] at hrest
      rw [Scene.meanSteps_cons, Pattern.stepsLength, ← Nat.add_assoc]
      exact (realises_code hf step active (own.getD axis) start hproper.1 hactive hrec.1
        hcode.left).comp hf (fun w w' => Scene.leads_of_mem_mean hactive step w w' hrec.1)
        (realises_codeOfSteps hf steps active axis _ hproper.2 hactive hrec.2 hrest)

theorem realises_codeOfBranches (hf : s.forest.WellFormed) :
    ∀ (branches : List Pattern) (active : List String) (axis : Axis) (start finish : Nat),
      branches ≠ [] → Pattern.ProperBranches branches → active ⊆ s.names →
      Pattern.recordedInBranches branches ⊆ s.names →
      start + Pattern.branchesLength branches + 2 * (branches.length - 1) = finish →
      s.program.Holds start
        (Pattern.codeOfBranches s.names (active.map s.names.idxOf) axis start finish branches) →
      s.Realises start finish (s.meanBranches active axis branches)
  | [], _, _, _, _, hne, _, _, _, _, _ => absurd rfl hne
  | [branch], active, axis, start, finish, _, hproper, hactive, hrec, hfinish, hcode => by
      rw [Pattern.codeOfBranches] at hcode
      rw [Pattern.ProperBranches] at hproper
      rw [Pattern.recordedInBranches, List.append_subset] at hrec
      have hend : start + branch.codeLength = finish := by
        rw [← hfinish]
        simp [Pattern.branchesLength]
      rw [Scene.meanBranches_singleton, ← hend]
      exact realises_code hf branch active axis start hproper.1 hactive hrec.1 hcode
  | branch :: next :: branches, active, axis, start, finish, _, hproper, hactive, hrec, hfinish,
      hcode => by
      rw [Pattern.codeOfBranches_cons_cons] at hcode
      rw [Pattern.ProperBranches] at hproper
      rw [Pattern.recordedInBranches, List.append_subset] at hrec
      rw [Pattern.branchesLength, List.length_cons] at hfinish
      intro w yielded hw h
      rw [Scene.meanBranches] at h ⊢
      have hrest := hcode.right
      rw [List.length_cons, Pattern.length_code] at hrest
      have hplace : start + (branch.codeLength + 1) + 1 = start + branch.codeLength + 2 := by omega
      have hjump := hrest.head
      have hothers := hrest.tail
      rw [hplace] at hothers
      -- the first branch jumps to the end, and the others follow behind it
      have hfirst : s.Yields (w.thread s.names (start + 1))
          ((s.mean active axis branch w).flatMap yielded) := by
        refine realises_code hf branch active axis (start + 1) hproper.1 hactive hrec.1
          hcode.left.tail w yielded hw fun w' hw' => ?_
        refine yields_jump ?_ (h w' (List.mem_append_left _ hw'))
        show s.program.at? (start + 1 + branch.codeLength) = _
        rw [Nat.add_right_comm]
        exact hjump
      have hsecond : s.Yields (w.thread s.names (start + branch.codeLength + 2))
          ((s.meanBranches active axis (next :: branches) w).flatMap yielded) := by
        refine realises_codeOfBranches hf (next :: branches) active axis _ finish
          (List.cons_ne_nil next branches) hproper.2 hactive hrec.2 ?_ hothers w yielded hw
          fun w' hw' => h w' (List.mem_append_right _ hw')
        rw [← hfinish]
        simp only [List.length_cons]
        omega
      rw [List.flatMap_append]
      exact yields_split hcode.left.head hfirst hsecond

end

end Search

end TreeRules
