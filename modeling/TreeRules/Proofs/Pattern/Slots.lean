/-
Names and their slots.

A pattern is gone through twice: once for the names that references to it are checked against, and
once for the slots of its program.  Both keep the first of equal names, so each is told by the names
that are come to.  The first comes to all names that the parts declare.  The second leaves out what
is never repeated even once, and goes through what is repeated more than once for each time that it
is written, which adds nothing new.  So where a repetition is never empty the two agree, and what a
reference was checked against has a slot.

A test is written with the slots of the names around it, which are among the names recorded.
-/
import TreeRules.Proofs.Pattern.Validated
import TreeRules.Proofs.Program.Draft

namespace TreeRules

namespace Pattern

variable {name : String} {names seen : List String} {p : Pattern} {steps : List (Option Axis × Pattern)}
  {branches : List Pattern}

/-- The name that a part declares. -/
def captureName? : Pattern → Option String
  | capture name _ => some name
  | _ => none

/-- The names that some parts declare, one for each time. -/
def declaredIn (parts : List Pattern) : List String := parts.filterMap captureName?

/-- A repetition that is never repeated even once. -/
def isIdle : Pattern → Bool
  | repetition _ _ (some 0) _ => true
  | _ => false

mutual

/-- The pattern with nothing in the place of what is never repeated even once. -/
def withoutIdle : Pattern → Pattern
  | test asked => test asked
  | sequence steps => sequence (withoutIdleSteps steps)
  | alternation branches => alternation (withoutIdleBranches branches)
  | repetition body min max greedy =>
    repetition (if max = some 0 then sequence [] else withoutIdle body) min max greedy
  | capture name body => capture name (withoutIdle body)
  | anchor place => anchor place
  | parent => parent

/-- Some steps with nothing in the place of what is never repeated. -/
def withoutIdleSteps : List (Option Axis × Pattern) → List (Option Axis × Pattern)
  | [] => []
  | (axis, step) :: steps => (axis, withoutIdle step) :: withoutIdleSteps steps

/-- Some branches with nothing in the place of what is never repeated. -/
def withoutIdleBranches : List Pattern → List Pattern
  | [] => []
  | branch :: branches => withoutIdle branch :: withoutIdleBranches branches

end

/-- Adds a name to those that have been seen, unless it is among them. -/
def addName (seen : List String) (name : String) : List String :=
  if seen.contains name then seen else seen ++ [name]

/-- Adds names one after another. -/
def addNames (seen names : List String) : List String := names.foldl addName seen

/-- The steps themselves. -/
def bodies (steps : List (Option Axis × Pattern)) : List Pattern := steps.map Prod.snd

theorem partsOfBranches_bodies (steps : List (Option Axis × Pattern)) :
    partsOfBranches (bodies steps) = partsOfSteps steps := by
  induction steps with
  | nil => rw [partsOfSteps]; rfl
  | cons step steps ih =>
      rw [bodies, List.map_cons, partsOfBranches, partsOfSteps]
      exact congrArg _ ih

theorem flatMap_parts (branches : List Pattern) : branches.flatMap parts = partsOfBranches branches := by
  induction branches with
  | nil => rfl
  | cons branch branches ih => rw [List.flatMap_cons, ih, partsOfBranches]

/-- Goes through the patterns on a stack, and adds the names that they declare to those that have
been seen. -/
def namesFrom (seen : List String) : List Pattern → List String
  | [] => seen
  | test _ :: pending | anchor _ :: pending | parent :: pending => namesFrom seen pending
  | sequence steps :: pending => namesFrom seen (bodies steps ++ pending)
  | alternation branches :: pending => namesFrom seen (branches ++ pending)
  | repetition body _ _ _ :: pending => namesFrom seen (body :: pending)
  | capture name body :: pending => namesFrom (addName seen name) (body :: pending)
termination_by pending => (pending.flatMap parts).length
decreasing_by
  all_goals simp [parts, List.flatMap_append, flatMap_parts, partsOfBranches_bodies]

/-! ### Names that are added -/

theorem addNames_append (seen names names' : List String) :
    addNames seen (names ++ names') = addNames (addNames seen names) names' :=
  List.foldl_append

/-- **Of equal names the first is kept**, and those that have been seen stay in front. -/
theorem addNames_eq (names : List String) :
    ∀ seen, addNames seen names = seen ++ (names.filter (!seen.contains ·)).eraseDups := by
  induction names with
  | nil => intro seen; simp [addNames]
  | cons name names ih =>
      intro seen
      have hstep : addNames seen (name :: names) = addNames (addName seen name) names := rfl
      rw [hstep, ih, addName]
      by_cases hseen : seen.contains name
      · rw [if_pos hseen, List.filter_cons_of_neg (by simpa using hseen)]
      · have hfilter : names.filter (!(seen ++ [name]).contains ·) =
            (names.filter (!seen.contains ·)).filter (!· == name) := by
          rw [List.filter_filter]
          refine List.filter_congr fun other _ => ?_
          rw [Bool.eq_iff_iff]
          simp [and_comm]
        rw [if_neg hseen, List.filter_cons_of_pos (by simpa using hseen), List.eraseDups_cons,
          hfilter, List.append_assoc, List.singleton_append]

theorem addNames_nil (names : List String) : addNames [] names = names.eraseDups := by
  rw [addNames_eq, List.nil_append]
  simp

mutual

theorem captureNamesAfter_eq :
    ∀ (p : Pattern) (seen : List String),
      p.captureNamesAfter seen = addNames seen (declaredIn p.parts)
  | test _, seen | anchor _, seen | parent, seen => by
      rw [captureNamesAfter, parts]
      rfl
  | sequence steps, seen => by
      rw [captureNamesAfter, parts]
      exact captureNamesOfSteps_eq steps seen
  | alternation branches, seen => by
      rw [captureNamesAfter, parts]
      exact captureNamesOfBranches_eq branches seen
  | repetition body min max greedy, seen => by
      rw [captureNamesAfter, parts]
      exact captureNamesAfter_eq body seen
  | capture name body, seen => by
      rw [captureNamesAfter, parts]
      exact captureNamesAfter_eq body _

theorem captureNamesOfSteps_eq :
    ∀ (steps : List (Option Axis × Pattern)) (seen : List String),
      captureNamesOfSteps seen steps = addNames seen (declaredIn (partsOfSteps steps))
  | [], seen => by
      rw [captureNamesOfSteps, partsOfSteps]
      rfl
  | (_, step) :: steps, seen => by
      rw [captureNamesOfSteps, partsOfSteps, declaredIn, List.filterMap_append, addNames_append,
        captureNamesAfter_eq step]
      exact captureNamesOfSteps_eq steps _

theorem captureNamesOfBranches_eq :
    ∀ (branches : List Pattern) (seen : List String),
      captureNamesOfBranches seen branches = addNames seen (declaredIn (partsOfBranches branches))
  | [], seen => by
      rw [captureNamesOfBranches, partsOfBranches]
      rfl
  | branch :: branches, seen => by
      rw [captureNamesOfBranches, partsOfBranches, declaredIn, List.filterMap_append,
        addNames_append, captureNamesAfter_eq branch]
      exact captureNamesOfBranches_eq branches _

end

/-- **The names of a pattern are those that its parts declare**, each where it is declared first. -/
theorem captureNames_eq (p : Pattern) : p.captureNames = (declaredIn p.parts).eraseDups := by
  rw [captureNames, captureNamesAfter_eq, addNames_nil]

/-- The stack comes to the parts in their order. -/
theorem namesFrom_eq (seen : List String) (pending : List Pattern) :
    namesFrom seen pending = addNames seen (declaredIn (pending.flatMap parts)) := by
  induction seen, pending using namesFrom.induct with
  | case1 seen => rw [namesFrom]; rfl
  | case2 seen asked pending ih => rw [namesFrom, ih]; rfl
  | case3 seen place pending ih => rw [namesFrom, ih]; rfl
  | case4 seen pending ih => rw [namesFrom, ih]; rfl
  | case5 seen steps pending ih =>
      rw [namesFrom, ih, List.flatMap_append, flatMap_parts, partsOfBranches_bodies,
        List.flatMap_cons, parts]
      rfl
  | case6 seen branches pending ih =>
      rw [namesFrom, ih, List.flatMap_append, flatMap_parts branches, List.flatMap_cons, parts]
      rfl
  | case7 seen body min max greedy pending ih =>
      rw [namesFrom, ih, List.flatMap_cons, List.flatMap_cons, parts]
      rfl
  | case8 seen name body pending ih =>
      rw [namesFrom, ih, List.flatMap_cons, List.flatMap_cons, parts]
      rfl

/-! ### Slots -/

/-- Each declaration adds its name. -/
theorem slotNames_declareAll (slots declared : List CaptureSlot) :
    slotNames (declareAll slots declared) = addNames (slotNames slots) (slotNames declared) := by
  induction declared generalizing slots with
  | nil => rfl
  | cons slot declared ih =>
      have hdeclare : slotNames (declare slot.name slot.kind slots) =
          addName (slotNames slots) slot.name := by
        rw [slotNames_declare, addName]
        simp only [List.contains_iff_mem]
      exact (ih _).trans (congrArg (addNames · (slotNames declared)) hdeclare)

/-- **The slots are those of the names recorded**, each where it is recorded first. -/
theorem slotNames_captureSlots (p : Pattern) : slotNames p.captureSlots = p.recorded.eraseDups := by
  rw [captureSlots, declareCaptures_eq, slotNames_declareAll]
  have hnames : slotNames (p.declarations false) = p.recorded := map_name_declarations false p
  rw [hnames]
  exact addNames_nil _

mutual

/-- What is recorded is what is declared when nothing stands in the place of what is never
repeated. -/
theorem recorded_eq :
    ∀ p : Pattern, (∀ body min greedy, .repetition body min (some 0) greedy ∈ p.parts → min = 0) →
      p.recorded = declaredIn p.withoutIdle.parts
  | test _, _ | anchor _, _ | parent, _ => by
      rw [recorded, withoutIdle, parts]
      rfl
  | sequence steps, h => by
      rw [recorded, withoutIdle, parts]
      exact recordedInSteps_eq steps fun body min greedy hmem =>
        h body min greedy (by rw [parts]; exact List.mem_cons_of_mem _ hmem)
  | alternation branches, h => by
      rw [recorded, withoutIdle, parts]
      exact recordedInBranches_eq branches fun body min greedy hmem =>
        h body min greedy (by rw [parts]; exact List.mem_cons_of_mem _ hmem)
  | repetition body min max greedy, h => by
      rw [recorded, withoutIdle, parts]
      by_cases hidle : max = some 0
      · subst hidle
        obtain rfl := h body min greedy (mem_parts_self _)
        rw [if_pos (by rfl), if_pos rfl]
        rfl
      · have hnever : ¬ (decide (min = 0) && decide (max = some 0)) = true := by simp [hidle]
        rw [if_neg hnever, if_neg hidle]
        exact recorded_eq body fun body min greedy hmem =>
          h body min greedy (by rw [parts]; exact List.mem_cons_of_mem _ hmem)
  | capture name body, h => by
      rw [recorded, withoutIdle, parts]
      have hbody := recorded_eq body fun body min greedy hmem =>
        h body min greedy (by rw [parts]; exact List.mem_cons_of_mem _ hmem)
      rw [hbody]
      rfl

theorem recordedInSteps_eq :
    ∀ steps : List (Option Axis × Pattern),
      (∀ body min greedy, .repetition body min (some 0) greedy ∈ partsOfSteps steps → min = 0) →
        recordedInSteps steps = declaredIn (partsOfSteps (withoutIdleSteps steps))
  | [], _ => by
      rw [recordedInSteps, withoutIdleSteps, partsOfSteps]
      rfl
  | (_, step) :: steps, h => by
      rw [partsOfSteps] at h
      rw [recordedInSteps, withoutIdleSteps, partsOfSteps, declaredIn, List.filterMap_append,
        recorded_eq step fun body min greedy hmem =>
          h body min greedy (List.mem_append_left _ hmem),
        recordedInSteps_eq steps fun body min greedy hmem =>
          h body min greedy (List.mem_append_right _ hmem)]
      rfl

theorem recordedInBranches_eq :
    ∀ branches : List Pattern,
      (∀ body min greedy, .repetition body min (some 0) greedy ∈ partsOfBranches branches →
        min = 0) →
        recordedInBranches branches = declaredIn (partsOfBranches (withoutIdleBranches branches))
  | [], _ => by
      rw [recordedInBranches, withoutIdleBranches, partsOfBranches]
      rfl
  | branch :: branches, h => by
      rw [partsOfBranches] at h
      rw [recordedInBranches, withoutIdleBranches, partsOfBranches, declaredIn,
        List.filterMap_append,
        recorded_eq branch fun body min greedy hmem =>
          h body min greedy (List.mem_append_left _ hmem),
        recordedInBranches_eq branches fun body min greedy hmem =>
          h body min greedy (List.mem_append_right _ hmem)]
      rfl

end

mutual

theorem withoutIdle_eq : ∀ p : Pattern, (∀ q ∈ p.parts, q.isIdle = false) → p.withoutIdle = p
  | test _, _ | anchor _, _ | parent, _ => by rw [withoutIdle]
  | sequence steps, h => by
      rw [parts, List.forall_mem_cons] at h
      rw [withoutIdle, withoutIdleSteps_eq steps h.2]
  | alternation branches, h => by
      rw [parts, List.forall_mem_cons] at h
      rw [withoutIdle, withoutIdleBranches_eq branches h.2]
  | repetition body min max greedy, h => by
      rw [parts, List.forall_mem_cons] at h
      have hmax : max ≠ some 0 := by
        rintro rfl
        exact Bool.noConfusion h.1
      rw [withoutIdle, if_neg hmax, withoutIdle_eq body h.2]
  | capture name body, h => by
      rw [parts, List.forall_mem_cons] at h
      rw [withoutIdle, withoutIdle_eq body h.2]

theorem withoutIdleSteps_eq : ∀ steps : List (Option Axis × Pattern),
    (∀ q ∈ partsOfSteps steps, q.isIdle = false) → withoutIdleSteps steps = steps
  | [], _ => by rw [withoutIdleSteps]
  | (_, step) :: steps, h => by
      rw [partsOfSteps, List.forall_mem_append] at h
      rw [withoutIdleSteps, withoutIdle_eq step h.1, withoutIdleSteps_eq steps h.2]

theorem withoutIdleBranches_eq : ∀ branches : List Pattern,
    (∀ q ∈ partsOfBranches branches, q.isIdle = false) → withoutIdleBranches branches = branches
  | [], _ => by rw [withoutIdleBranches]
  | branch :: branches, h => by
      rw [partsOfBranches, List.forall_mem_append] at h
      rw [withoutIdleBranches, withoutIdle_eq branch h.1, withoutIdleBranches_eq branches h.2]

end

/-! ### The slots of a test -/

section

variable {axis : Axis} {asked : NodeTest} {slots : List Nat} {code : Nat → List Instruction}
  {length : Nat}

theorem find_ne_choice {greedy : Bool} {body finish : Nat} :
    Instruction.find axis asked slots ≠ choice greedy body finish := by
  cases greedy <;> simp [choice]

theorem find_of_mem_copies (count : Nat) :
    ∀ start, .find axis asked slots ∈ copies code length start count →
      ∃ start', .find axis asked slots ∈ code start' := by
  induction count with
  | zero =>
      intro start h
      cases h
  | succ count ih =>
      intro start h
      rw [copies, List.mem_append] at h
      rcases h with h | h
      · exact ⟨start, h⟩
      · exact ih _ h

theorem find_of_mem_optionalCopies {finish : Nat} {greedy : Bool} (count : Nat) :
    ∀ start, .find axis asked slots ∈ optionalCopies code length finish greedy start count →
      ∃ start', .find axis asked slots ∈ code start' := by
  induction count with
  | zero =>
      intro start h
      cases h
  | succ count ih =>
      intro start h
      rw [optionalCopies, List.mem_append, List.mem_cons] at h
      rcases h with (h | h) | h
      · exact absurd h find_ne_choice
      · exact ⟨_, h⟩
      · exact ih _ h

theorem find_of_mem_extraCode {greedy : Bool} {start min : Nat} {max : Option Nat}
    (h : .find axis asked slots ∈ extraCode code length greedy start min max) :
    ∃ start', .find axis asked slots ∈ code start' := by
  cases max with
  | some max => exact find_of_mem_optionalCopies _ _ h
  | none =>
      rw [extraCode, loop, List.mem_append, List.mem_cons, List.mem_singleton] at h
      rcases h with (h | h) | h
      · exact absurd h find_ne_choice
      · exact ⟨_, h⟩
      · cases h

mutual

/-- **A test is written with the slots of the names around it**, the outermost first. -/
theorem names_of_mem_code : ∀ (p : Pattern) {around : List String} {own : Axis} {start : Nat},
    .find axis asked slots ∈ p.code names (around.map names.idxOf) own start →
      ∃ inner ∈ p.namesOfTests around, slots = inner.map names.idxOf
  | test _, around, own, start, h => by
      rw [Pattern.code, List.mem_singleton] at h
      rw [namesOfTests]
      exact ⟨around, List.mem_singleton.mpr rfl, (Instruction.find.inj h).2.2⟩
  | anchor _, around, own, start, h | parent, around, own, start, h => by
      rw [Pattern.code, List.mem_singleton] at h
      cases h
  | sequence steps, around, own, start, h => by
      rw [Pattern.code] at h
      rw [namesOfTests]
      exact names_of_mem_codeOfSteps steps h
  | alternation branches, around, own, start, h => by
      rw [Pattern.code] at h
      rw [namesOfTests]
      exact names_of_mem_codeOfBranches branches h
  | repetition body min max greedy, around, own, start, h => by
      rw [code_repetition, List.mem_append] at h
      rw [namesOfTests]
      by_cases hnever : (decide (min = 0) && decide (max = some 0)) = true
      · -- the body is written no time at all
        obtain ⟨rfl, rfl⟩ : min = 0 ∧ max = some 0 := by simpa using hnever
        rcases h with h | h <;> cases h
      · rw [if_neg hnever]
        have hbody : ∃ start', .find axis asked slots ∈
            body.code names (around.map names.idxOf) own start' := by
          rcases h with h | h
          · exact find_of_mem_copies _ _ h
          · exact find_of_mem_extraCode h
        obtain ⟨start', hbody⟩ := hbody
        exact names_of_mem_code body hbody
  | capture name body, around, own, start, h => by
      rw [Pattern.code] at h
      rw [namesOfTests]
      exact names_of_mem_code body (by rwa [List.map_append])

theorem names_of_mem_codeOfSteps : ∀ (steps : List (Option Axis × Pattern)) {around : List String}
    {own : Axis} {start : Nat},
    .find axis asked slots ∈ codeOfSteps names (around.map names.idxOf) own start steps →
      ∃ inner ∈ namesOfTestsInSteps around steps, slots = inner.map names.idxOf
  | [], around, own, start, h => by
      rw [codeOfSteps] at h
      cases h
  | (_, step) :: steps, around, own, start, h => by
      rw [codeOfSteps, List.mem_append] at h
      rw [namesOfTestsInSteps]
      rcases h with h | h
      · obtain ⟨inner, hinner, hslots⟩ := names_of_mem_code step h
        exact ⟨inner, List.mem_append_left _ hinner, hslots⟩
      · obtain ⟨inner, hinner, hslots⟩ := names_of_mem_codeOfSteps steps h
        exact ⟨inner, List.mem_append_right _ hinner, hslots⟩

theorem names_of_mem_codeOfBranches : ∀ (branches : List Pattern) {around : List String}
    {own : Axis} {start finish : Nat},
    .find axis asked slots ∈ codeOfBranches names (around.map names.idxOf) own start finish branches →
      ∃ inner ∈ namesOfTestsInBranches around branches, slots = inner.map names.idxOf
  | [], around, own, start, finish, h => by
      rw [codeOfBranches] at h
      cases h
  | [branch], around, own, start, finish, h => by
      rw [codeOfBranches] at h
      rw [namesOfTestsInBranches, namesOfTestsInBranches, List.append_nil]
      exact names_of_mem_code branch h
  | branch :: next :: branches, around, own, start, finish, h => by
      rw [codeOfBranches_cons_cons, List.mem_append, List.mem_cons, List.mem_cons] at h
      rw [namesOfTestsInBranches]
      rcases h with (h | h) | h | h
      · cases h
      · obtain ⟨inner, hinner, hslots⟩ := names_of_mem_code branch h
        exact ⟨inner, List.mem_append_left _ hinner, hslots⟩
      · cases h
      · obtain ⟨inner, hinner, hslots⟩ := names_of_mem_codeOfBranches (next :: branches) h
        exact ⟨inner, List.mem_append_right _ hinner, hslots⟩

end

end

/-- The slots of a test in a program are those of the names around it. -/
theorem names_of_mem_compile {axis : Axis} {asked : NodeTest} {slots : List Nat}
    (h : .find axis asked slots ∈ p.compile.instructions) :
    ∃ around ∈ p.namesOfTests [],
      slots.map ((slotNames p.compile.captures)[·]?) = around.map some := by
  have hcode : .find axis asked slots ∈
      p.code (slotNames p.captureSlots) (([] : List String).map (slotNames p.captureSlots).idxOf)
        .child 0 := by
    rw [compile, List.mem_toArray, List.mem_append, List.mem_singleton] at h
    exact h.resolve_right (by simp)
  obtain ⟨around, haround, rfl⟩ := names_of_mem_code p hcode
  refine ⟨around, haround, ?_⟩
  rw [List.map_map]
  refine List.map_congr_left fun name hname => ?_
  obtain ⟨inner, rfl, hinner⟩ := exists_of_mem_namesOfTests p [] around haround
  have hmem : name ∈ slotNames p.captureSlots := recorded_subset_captureSlots p (hinner hname)
  exact List.getElem?_idxOf hmem

end Pattern

/-- The name has a slot, which is a slot of that name. -/
def Program.Resolves (program : Program) (name : String) : Prop :=
  ∃ slot, program.slot? name = some slot ∧
    (Pattern.slotNames program.captures)[slot]? = some name

theorem Program.resolves_iff {program : Program} {name : String} :
    program.Resolves name ↔ name ∈ Pattern.slotNames program.captures := by
  have hslot : program.slot? name = (Pattern.slotNames program.captures).findIdx? (· == name) := by
    rw [slot?, Pattern.slotNames, List.findIdx?_map]
    rfl
  constructor
  · rintro ⟨slot, -, hname⟩
    exact List.mem_of_getElem? hname
  · intro hmem
    cases hfind : (Pattern.slotNames program.captures).findIdx? (· == name) with
    | none =>
        have hnot := List.findIdx?_eq_none_iff.mp hfind name hmem
        simp at hnot
    | some slot =>
        obtain ⟨hlt, hname, -⟩ := List.findIdx?_eq_some_iff_getElem.mp hfind
        refine ⟨slot, hslot.trans hfind, ?_⟩
        rw [List.getElem?_eq_getElem hlt, beq_iff_eq.mp hname]

namespace CompiledPattern

open Grammar Pattern TreeRules.Text

variable {text : String} {settings : Settings} {p : CompiledPattern}

/-- What is never repeated even once is said to be repeated no time at least. -/
theorem min_eq_zero_of_read (h : read text settings = .ok p) {body : Pattern} {min : Nat}
    {greedy : Bool} (hmem : .repetition body min (some 0) greedy ∈ p.pattern.parts) : min = 0 := by
  obtain ⟨d, -, hadmissible, rfl⟩ := exists_derivation_of_read h
  obtain ⟨hpiece, -⟩ := d.accounts.repeated body min (some 0) greedy hmem
  have hallowed := hadmissible.allowed body min _ (Derivation.mem_pieces_of_repeated hpiece)
  exact Nat.le_zero.mp (hallowed.min_le_max 0 rfl)

/-- A name that the pattern refers back to is one of its names. -/
theorem references_subset_of_read (h : read text settings = .ok p) :
    p.pattern.references ⊆ p.pattern.captureNames := by
  obtain ⟨d, -, hadmissible, rfl⟩ := exists_derivation_of_read h
  intro name hname
  have hname : name ∈ (tokensOf d.pieces).filterMap nameOf? := d.accounts.references ▸ hname
  obtain ⟨⟨token, position⟩, htoken, hvalue⟩ := List.mem_filterMap.mp hname
  obtain rfl : token = .reference name := by
    unfold nameOf? at hvalue
    split at hvalue
    · rename_i htoken
      exact htoken.trans (congrArg _ (Option.some.inj hvalue))
    · cases hvalue
  obtain ⟨before, after, hsplit⟩ := List.append_of_mem (mem_pieces_of_mem_tokensOf htoken)
  obtain ⟨-, -, -, element, -, -, hcapture⟩ :=
    d.accounts.exists_capture hadmissible.backward_pieces hsplit
  rw [captureNames_eq, List.mem_eraseDups]
  exact List.mem_filterMap.mpr ⟨_, hcapture, rfl⟩

/-- The template behind an arrow has been checked against the names of the pattern. -/
theorem check_template_of_read (h : read text settings = .ok p) {t : Template}
    (ht : p.template = some t) : t.check p.pattern.captureNames = .ok () := by
  rw [read_eq] at h
  obtain ⟨tokens, -, h⟩ := Pattern.ok_of_bind h
  cases hread : readTokens ⟨byteWidth text.toList, settings.maxBound⟩ tokens with
  | error e =>
      rw [hread] at h
      cases h
  | ok answer =>
      rw [hread] at h
      obtain rfl := Except.ok.inj h
      obtain ⟨-, -, -, -, -, hcheck⟩ := readTokens_eq_ok.mp hread
      exact hcheck t ht

/-- **Names and slots go together.**

No two slots of a program have one name.  The names are those that the parts of the pattern declare,
each where it is declared first, with nothing in the place of what is never repeated even once, and
they are the same if the program is written from front to back.  The names that references are
checked against are those that all parts declare, and a walk that keeps a stack of patterns comes to
them in that order.  A test has the slots of the names around it.

If nothing stands in the pattern that is never repeated even once, the two lists of names are one.
Then what the pattern refers back to has a slot, and so has what a template refers to that has been
checked against the pattern, as the one behind the arrow has. -/
theorem slots_of_read (h : read text settings = .ok p) :
    (slotNames p.program.captures).Nodup ∧
    slotNames p.program.captures = (declaredIn p.pattern.withoutIdle.parts).eraseDups ∧
    p.pattern.written.captures = p.program.captures ∧
    p.pattern.captureNames = (declaredIn p.pattern.parts).eraseDups ∧
    namesFrom [] [p.pattern] = p.pattern.captureNames ∧
    (∀ axis asked slots, .find axis asked slots ∈ p.program.instructions →
      (∀ slot ∈ slots, slot < p.program.captures.length) ∧
        ∃ around ∈ p.pattern.namesOfTests [],
          slots.map ((slotNames p.program.captures)[·]?) = around.map some) ∧
    (∀ t, p.template = some t → t.check p.pattern.captureNames = .ok ()) ∧
    ((∀ q ∈ p.pattern.parts, q.isIdle = false) →
      slotNames p.program.captures = p.pattern.captureNames ∧
      (∀ name ∈ p.pattern.references, p.program.Resolves name) ∧
      ∀ t : Template, t.check p.pattern.captureNames = .ok () →
        ∀ name position, (name, position) ∈ t.references → p.program.Resolves name) := by
  have hprogram : p.program = p.pattern.compile := by
    obtain ⟨d, -, -, rfl⟩ := exists_derivation_of_read h
    rfl
  have hcaptures : p.program.captures = p.pattern.captureSlots := by
    rw [hprogram]
    rfl
  have hslots : slotNames p.program.captures =
      (declaredIn p.pattern.withoutIdle.parts).eraseDups := by
    rw [hcaptures, slotNames_captureSlots,
      recorded_eq p.pattern fun body min greedy hmem => min_eq_zero_of_read h hmem]
  refine ⟨?_, hslots, ?_, captureNames_eq p.pattern, ?_, ?_, fun t ht => check_template_of_read h ht,
    fun hidle => ?_⟩
  · rw [hcaptures]
    exact nodup_captureSlots p.pattern
  · rw [written_eq, hprogram]
  · rw [namesFrom_eq, List.flatMap_singleton, addNames_nil, captureNames_eq]
  · intro axis asked slots hfind
    rw [hprogram] at hfind ⊢
    obtain ⟨around, haround, heq⟩ := names_of_mem_compile hfind
    refine ⟨fun slot hslot => ?_, around, haround, heq⟩
    have hmem : (slotNames p.pattern.compile.captures)[slot]? ∈ around.map some :=
      heq ▸ List.mem_map_of_mem hslot
    obtain ⟨name, -, hname⟩ := List.mem_map.mp hmem
    obtain ⟨hlt, -⟩ := List.getElem?_eq_some_iff.mp hname.symm
    simpa [slotNames] using hlt
  · have hnames : slotNames p.program.captures = p.pattern.captureNames := by
      rw [hslots, withoutIdle_eq p.pattern hidle, captureNames_eq]
    refine ⟨hnames, fun name hname => ?_, fun t hcheck name position hmem => ?_⟩
    · rw [Program.resolves_iff, hnames]
      exact references_subset_of_read h hname
    · rw [Program.resolves_iff, hnames]
      exact check_eq_ok.mp hcheck name position hmem

/-- Two names come before the second alternative names one of them again, and the code of all this is
written three times. -/
def namedAgain : CompiledPattern :=
  let pattern : Pattern := .sequence [
    (none, .repetition (.sequence [
      (none, .capture "y" (.capture "x" (.test (.literal "a")))),
      (some .child, .alternation [.capture "z" (.test (.literal "b")),
        .capture "x" (.test (.literal "c"))])]) 2 (some 3) true),
    (some .child, .test (.reference "x"))]
  { source := "(y:x:a/(z:b|x:c)){2,3}/$x -> n/$z, $y", pattern, program := pattern.compile
    template := some ⟨[.node (.literal "n") [.node (.capture "z" 31) []],
      .node (.capture "y" 35) []]⟩
    predicates := [] }

theorem slots_of_read_namedAgain :
    read "(y:x:a/(z:b|x:c)){2,3}/$x -> n/$z, $y" {} = .ok namedAgain ∧
      (∀ q ∈ namedAgain.pattern.parts, q.isIdle = false) ∧
      slotNames namedAgain.program.captures = ["y", "x", "z"] ∧
      namesFrom [] [namedAgain.pattern] = ["y", "x", "z"] ∧
      declaredIn namedAgain.pattern.parts = ["y", "x", "z", "x"] ∧
      .find .child (.literal "a") [0, 1] ∈ namedAgain.program.instructions ∧
      0 < namedAgain.program.captures.length ∧ 1 < namedAgain.program.captures.length ∧
      namedAgain.program.Resolves "x" ∧ namedAgain.program.Resolves "z" ∧
      namedAgain.program.Resolves "y" := by
  have hread : read "(y:x:a/(z:b|x:c)){2,3}/$x -> n/$z, $y" {} = .ok namedAgain := by cbv
  have hidle : ∀ q ∈ namedAgain.pattern.parts, q.isIdle = false := by decide
  have hcode : .find .child (.literal "a") [0, 1] ∈ namedAgain.program.instructions := by
    decide +kernel
  have hdeclared : declaredIn namedAgain.pattern.parts = ["y", "x", "z", "x"] := by decide
  have hnames : namedAgain.pattern.captureNames = ["y", "x", "z"] := by decide
  obtain ⟨-, -, -, -, hwalk, hfind, htemplate, hresolves⟩ := slots_of_read hread
  obtain ⟨hslots, hback, hchecked⟩ := hresolves hidle
  obtain ⟨hvalid, -⟩ := hfind _ _ _ hcode
  have hcheck := htemplate _ rfl
  exact ⟨hread, hidle, hslots.trans hnames, hwalk.trans hnames, hdeclared, hcode,
    hvalid 0 (by decide), hvalid 1 (by decide), hback "x" (by decide),
    hchecked _ hcheck "z" 31 (by decide), hchecked _ hcheck "y" 35 (by decide)⟩

/-- What is never repeated even once has no slot, but a reference to it is accepted. -/
example :
    let pattern : Pattern := .sequence [
      (none, .repetition (.capture "x" (.test .any)) 0 (some 0) true),
      (some .child, .capture "y" (.test .any))]
    pattern.captureNames = ["x", "y"] ∧ slotNames pattern.compile.captures = ["y"] := by
  decide

end CompiledPattern

end TreeRules
