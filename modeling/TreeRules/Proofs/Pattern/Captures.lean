/-
The names under which a program captures.

A name has one slot, however often it is declared, and every name under which the code of a pattern
records a node has one.  So the place of a name among the slots stands for the name.

A test lies within captures, one within another, and their names are what it consumes a node under.
`namesOfTests` lists them for every test of a pattern, the outermost name first.
-/
import Mathlib.Data.List.Nodup
import TreeRules.Program

namespace TreeRules.Pattern

mutual

/-- The names under which the code of a pattern records nodes.  A body that is repeated no time at
all has no code. -/
def recorded : Pattern → List String
  | test _ | anchor _ | parent => []
  | sequence steps => recordedInSteps steps
  | alternation branches => recordedInBranches branches
  | repetition body min max _ => if min = 0 && max = some 0 then [] else recorded body
  | capture name body => name :: recorded body

/-- The names under which the code of some steps records nodes. -/
def recordedInSteps : List (Option Axis × Pattern) → List String
  | [] => []
  | (_, step) :: steps => recorded step ++ recordedInSteps steps

/-- The names under which the code of some branches records nodes. -/
def recordedInBranches : List Pattern → List String
  | [] => []
  | branch :: branches => recorded branch ++ recordedInBranches branches

end

/-- The names of some slots. -/
def slotNames (slots : List CaptureSlot) : List String := slots.map CaptureSlot.name

theorem slotNames_declare (name : String) (kind : CaptureKind) (slots : List CaptureSlot) :
    slotNames (declare name kind slots) =
      if name ∈ slotNames slots then slotNames slots else slotNames slots ++ [name] := by
  have hany : slots.any (·.name == name) = true ↔ name ∈ slotNames slots := by
    simp [slotNames]
  unfold declare
  by_cases h : name ∈ slotNames slots
  · rw [if_pos (hany.mpr h), if_pos h]
    unfold slotNames
    rw [List.map_map]
    refine List.map_congr_left fun slot _ => ?_
    show (if slot.name = name then { slot with kind := .multiple } else slot).name = slot.name
    split <;> rfl
  · rw [if_neg (fun hc => h (hany.mp hc)), if_neg h]
    simp [slotNames]

theorem nodup_slotNames_declare {slots : List CaptureSlot} (h : (slotNames slots).Nodup)
    (name : String) (kind : CaptureKind) : (slotNames (declare name kind slots)).Nodup := by
  rw [slotNames_declare]
  split
  · exact h
  · rename_i hname
    rw [List.nodup_append]
    refine ⟨h, List.nodup_singleton name, ?_⟩
    intro a ha b hb hab
    rw [List.mem_singleton] at hb
    exact hname (hb ▸ hab ▸ ha)

theorem subset_slotNames_declare (name : String) (kind : CaptureKind) (slots : List CaptureSlot) :
    name :: slotNames slots ⊆ slotNames (declare name kind slots) := by
  rw [slotNames_declare]
  split
  · rename_i hname
    exact List.cons_subset.mpr ⟨hname, List.Subset.refl _⟩
  · intro x hx
    rcases List.mem_cons.mp hx with rfl | hx
    · exact List.mem_append_right _ (List.mem_singleton.mpr rfl)
    · exact List.mem_append_left _ hx

/-- Declaring a name leaves the slots of the others where they are. -/
theorem prefix_slotNames_declare (name : String) (kind : CaptureKind) (slots : List CaptureSlot) :
    slotNames slots <+: slotNames (declare name kind slots) := by
  rw [slotNames_declare]
  split
  · exact List.prefix_refl _
  · exact List.prefix_append _ _

/-! ### A name has one slot -/

mutual

theorem nodup_declareCaptures (repeated : Bool) {slots : List CaptureSlot}
    (h : (slotNames slots).Nodup) :
    ∀ p : Pattern, (slotNames (p.declareCaptures repeated slots)).Nodup
  | test _ | anchor _ | parent => by rw [declareCaptures]; exact h
  | sequence steps => by
      rw [declareCaptures]
      exact nodup_declareInSteps repeated h steps
  | alternation branches => by
      rw [declareCaptures]
      exact nodup_declareInBranches repeated h branches
  | repetition body min max _ => by
      rw [declareCaptures]
      split
      · exact h
      · exact nodup_declareCaptures true h body
  | capture name body => by
      rw [declareCaptures]
      exact nodup_declareCaptures repeated (nodup_slotNames_declare h name _) body

theorem nodup_declareInSteps (repeated : Bool) {slots : List CaptureSlot}
    (h : (slotNames slots).Nodup) :
    ∀ steps, (slotNames (declareInSteps repeated slots steps)).Nodup
  | [] => by rw [declareInSteps]; exact h
  | (_, step) :: steps => by
      rw [declareInSteps]
      exact nodup_declareInSteps repeated (nodup_declareCaptures repeated h step) steps

theorem nodup_declareInBranches (repeated : Bool) {slots : List CaptureSlot}
    (h : (slotNames slots).Nodup) :
    ∀ branches, (slotNames (declareInBranches repeated slots branches)).Nodup
  | [] => by rw [declareInBranches]; exact h
  | branch :: branches => by
      rw [declareInBranches]
      exact nodup_declareInBranches repeated (nodup_declareCaptures repeated h branch) branches

end

/-- **No two captures of a program have one name.** -/
theorem nodup_captureSlots (p : Pattern) : (slotNames p.captureSlots).Nodup :=
  nodup_declareCaptures false (show (slotNames []).Nodup from List.nodup_nil) p

/-! ### Every name recorded has a slot -/

mutual

theorem recorded_subset (repeated : Bool) (slots : List CaptureSlot) :
    ∀ p : Pattern, slotNames slots ++ p.recorded ⊆ slotNames (p.declareCaptures repeated slots)
  | test _ | anchor _ | parent => by
      rw [declareCaptures, recorded, List.append_nil]
      exact List.Subset.refl _
  | sequence steps => by
      rw [declareCaptures, recorded]
      exact recordedInSteps_subset repeated slots steps
  | alternation branches => by
      rw [declareCaptures, recorded]
      exact recordedInBranches_subset repeated slots branches
  | repetition body min max _ => by
      rw [declareCaptures, recorded]
      split
      · rw [List.append_nil]
        exact List.Subset.refl _
      · exact recorded_subset true slots body
  | capture name body => by
      rw [declareCaptures, recorded]
      intro x hx
      refine recorded_subset repeated _ body ?_
      rw [List.append_cons, List.mem_append] at hx
      rw [List.mem_append]
      refine hx.imp_left fun hx => subset_slotNames_declare name _ slots ?_
      rw [List.mem_append, List.mem_singleton] at hx
      exact List.mem_cons.mpr hx.symm

theorem recordedInSteps_subset (repeated : Bool) (slots : List CaptureSlot) :
    ∀ steps, slotNames slots ++ recordedInSteps steps ⊆
      slotNames (declareInSteps repeated slots steps)
  | [] => by
      rw [declareInSteps, recordedInSteps, List.append_nil]
      exact List.Subset.refl _
  | (_, step) :: steps => by
      rw [declareInSteps, recordedInSteps, ← List.append_assoc]
      intro x hx
      refine recordedInSteps_subset repeated _ steps ?_
      rw [List.mem_append] at hx ⊢
      exact hx.imp_left fun hx => recorded_subset repeated slots step hx

theorem recordedInBranches_subset (repeated : Bool) (slots : List CaptureSlot) :
    ∀ branches, slotNames slots ++ recordedInBranches branches ⊆
      slotNames (declareInBranches repeated slots branches)
  | [] => by
      rw [declareInBranches, recordedInBranches, List.append_nil]
      exact List.Subset.refl _
  | branch :: branches => by
      rw [declareInBranches, recordedInBranches, ← List.append_assoc]
      intro x hx
      refine recordedInBranches_subset repeated _ branches ?_
      rw [List.mem_append] at hx ⊢
      exact hx.imp_left fun hx => recorded_subset repeated slots branch hx

end

/-- **Every name that the code of a pattern records nodes under is the name of a capture.** -/
theorem recorded_subset_captureSlots (p : Pattern) : p.recorded ⊆ slotNames p.captureSlots :=
  recorded_subset false [] p

/-! ### The names around a test -/

mutual

/-- For each test of a pattern, the names of the captures around it, the outermost first, if the
pattern itself is captured under `names`. -/
def namesOfTests (names : List String) : Pattern → List (List String)
  | test _ => [names]
  | anchor _ | parent => []
  | sequence steps => namesOfTestsInSteps names steps
  | alternation branches => namesOfTestsInBranches names branches
  | repetition body min max _ => if min = 0 && max = some 0 then [] else namesOfTests names body
  | capture name body => namesOfTests (names ++ [name]) body

/-- The names of the captures around each test of some steps. -/
def namesOfTestsInSteps (names : List String) : List (Option Axis × Pattern) → List (List String)
  | [] => []
  | (_, step) :: steps => namesOfTests names step ++ namesOfTestsInSteps names steps

/-- The names of the captures around each test of some branches. -/
def namesOfTestsInBranches (names : List String) : List Pattern → List (List String)
  | [] => []
  | branch :: branches => namesOfTests names branch ++ namesOfTestsInBranches names branches

end

mutual

/-- Around a test are the names around the pattern, and then names that the pattern records. -/
theorem exists_of_mem_namesOfTests :
    ∀ (p : Pattern) (names : List String), ∀ around ∈ p.namesOfTests names,
      ∃ inner, around = names ++ inner ∧ inner ⊆ p.recorded
  | test _, names, around, h => by
      rw [namesOfTests, List.mem_singleton] at h
      exact ⟨[], by rw [h, List.append_nil], List.nil_subset _⟩
  | anchor _, names, around, h | parent, names, around, h => by
      rw [namesOfTests] at h
      exact absurd h List.not_mem_nil
  | sequence steps, names, around, h => by
      rw [namesOfTests] at h
      rw [recorded]
      exact exists_of_mem_namesOfTestsInSteps steps names around h
  | alternation branches, names, around, h => by
      rw [namesOfTests] at h
      rw [recorded]
      exact exists_of_mem_namesOfTestsInBranches branches names around h
  | repetition body min max _, names, around, h => by
      rw [namesOfTests] at h
      rw [recorded]
      split at h
      · exact absurd h List.not_mem_nil
      · rename_i hnever
        rw [if_neg hnever]
        exact exists_of_mem_namesOfTests body names around h
  | capture name body, names, around, h => by
      rw [namesOfTests] at h
      obtain ⟨inner, rfl, hinner⟩ := exists_of_mem_namesOfTests body _ around h
      rw [recorded]
      exact ⟨name :: inner, by rw [List.append_assoc, List.singleton_append],
        List.cons_subset_cons name hinner⟩

theorem exists_of_mem_namesOfTestsInSteps :
    ∀ (steps : List (Option Axis × Pattern)) (names : List String),
      ∀ around ∈ namesOfTestsInSteps names steps,
        ∃ inner, around = names ++ inner ∧ inner ⊆ recordedInSteps steps
  | [], names, around, h => by
      rw [namesOfTestsInSteps] at h
      exact absurd h List.not_mem_nil
  | (_, step) :: steps, names, around, h => by
      rw [namesOfTestsInSteps, List.mem_append] at h
      rw [recordedInSteps]
      rcases h with h | h
      · obtain ⟨inner, heq, hinner⟩ := exists_of_mem_namesOfTests step names around h
        exact ⟨inner, heq, List.subset_append_of_subset_left _ hinner⟩
      · obtain ⟨inner, heq, hinner⟩ := exists_of_mem_namesOfTestsInSteps steps names around h
        exact ⟨inner, heq, List.subset_append_of_subset_right _ hinner⟩

theorem exists_of_mem_namesOfTestsInBranches :
    ∀ (branches : List Pattern) (names : List String),
      ∀ around ∈ namesOfTestsInBranches names branches,
        ∃ inner, around = names ++ inner ∧ inner ⊆ recordedInBranches branches
  | [], names, around, h => by
      rw [namesOfTestsInBranches] at h
      exact absurd h List.not_mem_nil
  | branch :: branches, names, around, h => by
      rw [namesOfTestsInBranches, List.mem_append] at h
      rw [recordedInBranches]
      rcases h with h | h
      · obtain ⟨inner, heq, hinner⟩ := exists_of_mem_namesOfTests branch names around h
        exact ⟨inner, heq, List.subset_append_of_subset_left _ hinner⟩
      · obtain ⟨inner, heq, hinner⟩ := exists_of_mem_namesOfTestsInBranches branches names around h
        exact ⟨inner, heq, List.subset_append_of_subset_right _ hinner⟩

end

theorem not_mem_of_mem_namesOfTests {p : Pattern} {name : String} {names around : List String}
    (hnames : name ∉ names) (hrec : name ∉ p.recorded) (h : around ∈ p.namesOfTests names) :
    name ∉ around := by
  obtain ⟨inner, rfl, hinner⟩ := exists_of_mem_namesOfTests p names around h
  rw [List.mem_append]
  exact fun hmem => hmem.elim hnames fun hmem => hrec (hinner hmem)

end TreeRules.Pattern
