/-
The kinds of captures.

Declaring goes through a pattern once and merges what has one name.  What comes of it is told by the
declarations alone, each with the kind that it has by itself: a capture has the kind of its
declaration if no other has its name, and binds a list of nodes if there are several.  So neither
the names nor the kinds depend on the order in which the names are declared.
-/
import Mathlib.Data.List.Induction
import Mathlib.Data.List.Nodup
import TreeRules.Proofs.Pattern.Captures

namespace TreeRules.Pattern

mutual

/-- The captures that a pattern declares, one for each time that it does, each of the kind that it
has by itself; `repeated` says that the pattern lies within a repetition. -/
def declarations (repeated : Bool) : Pattern → List CaptureSlot
  | test _ | anchor _ | parent => []
  | sequence steps => declarationsInSteps repeated steps
  | alternation branches => declarationsInBranches repeated branches
  | repetition body min max _ => if min = 0 && max = some 0 then [] else declarations true body
  | capture name body =>
    ⟨name, if !repeated && body.consumesExactlyOne then .single else .multiple⟩ ::
      declarations repeated body

/-- The captures that some steps declare. -/
def declarationsInSteps (repeated : Bool) : List (Option Axis × Pattern) → List CaptureSlot
  | [] => []
  | (_, step) :: steps => declarations repeated step ++ declarationsInSteps repeated steps

/-- The captures that some branches declare. -/
def declarationsInBranches (repeated : Bool) : List Pattern → List CaptureSlot
  | [] => []
  | branch :: branches => declarations repeated branch ++ declarationsInBranches repeated branches

end

/-- Declares captures one after another. -/
def declareAll (slots declared : List CaptureSlot) : List CaptureSlot :=
  declared.foldl (fun slots slot => declare slot.name slot.kind slots) slots

/-- The kind of a capture that is declared in these ways, if it is declared at all. -/
def mergedKind? : List CaptureSlot → Option CaptureKind
  | [] => none
  | [slot] => some slot.kind
  | _ => some .multiple

/-! ### Declaring is a fold over the declarations -/

theorem declareAll_append (slots declared declared' : List CaptureSlot) :
    declareAll slots (declared ++ declared') = declareAll (declareAll slots declared) declared' :=
  List.foldl_append

mutual

theorem declareCaptures_eq (repeated : Bool) :
    ∀ (p : Pattern) (slots : List CaptureSlot),
      p.declareCaptures repeated slots = declareAll slots (p.declarations repeated)
  | test _, slots | anchor _, slots | parent, slots => by
      rw [declareCaptures, declarations]
      rfl
  | sequence steps, slots => by
      rw [declareCaptures, declarations]
      exact declareInSteps_eq repeated steps slots
  | alternation branches, slots => by
      rw [declareCaptures, declarations]
      exact declareInBranches_eq repeated branches slots
  | repetition body min max _, slots => by
      rw [declareCaptures, declarations]
      split
      · rfl
      · exact declareCaptures_eq true body slots
  | capture name body, slots => by
      rw [declareCaptures, declarations]
      exact declareCaptures_eq repeated body _

theorem declareInSteps_eq (repeated : Bool) :
    ∀ (steps : List (Option Axis × Pattern)) (slots : List CaptureSlot),
      declareInSteps repeated slots steps = declareAll slots (declarationsInSteps repeated steps)
  | [], slots => by
      rw [declareInSteps, declarationsInSteps]
      rfl
  | (_, step) :: steps, slots => by
      rw [declareInSteps, declarationsInSteps, declareAll_append, ← declareCaptures_eq repeated step]
      exact declareInSteps_eq repeated steps _

theorem declareInBranches_eq (repeated : Bool) :
    ∀ (branches : List Pattern) (slots : List CaptureSlot),
      declareInBranches repeated slots branches =
        declareAll slots (declarationsInBranches repeated branches)
  | [], slots => by
      rw [declareInBranches, declarationsInBranches]
      rfl
  | branch :: branches, slots => by
      rw [declareInBranches, declarationsInBranches, declareAll_append,
        ← declareCaptures_eq repeated branch]
      exact declareInBranches_eq repeated branches _

end

/-! ### What is declared -/

variable {slot : CaptureSlot} {slots declared : List CaptureSlot} {name : String}
  {kind : CaptureKind}

theorem mem_slotNames_iff : name ∈ slotNames slots ↔ ∃ kind, ⟨name, kind⟩ ∈ slots := by
  rw [slotNames, List.mem_map]
  constructor
  · rintro ⟨slot, hslot, rfl⟩
    exact ⟨slot.kind, hslot⟩
  · rintro ⟨kind, hslot⟩
    exact ⟨⟨name, kind⟩, hslot, rfl⟩

theorem mem_declare_of_ne (h : slot.name ≠ name) : slot ∈ declare name kind slots ↔ slot ∈ slots := by
  unfold declare
  split
  · rw [List.mem_map]
    constructor
    · rintro ⟨other, hother, hslot⟩
      by_cases hname : other.name = name
      · rw [if_pos hname] at hslot
        exact absurd (hslot ▸ hname) h
      · rw [if_neg hname] at hslot
        exact hslot ▸ hother
    · intro hslot
      exact ⟨slot, hslot, if_neg h⟩
  · rw [List.mem_append, List.mem_singleton]
    exact or_iff_left fun hslot => h (hslot ▸ rfl)

/-- A name that is declared for the first time is of the kind that it is declared with, and one that
has been declared before binds a list. -/
theorem mem_declare_self {kind' : CaptureKind} :
    ⟨name, kind'⟩ ∈ declare name kind slots ↔
      kind' = if name ∈ slotNames slots then .multiple else kind := by
  have hany : slots.any (·.name == name) = true ↔ name ∈ slotNames slots := by
    simp [slotNames]
  unfold declare
  by_cases hname : name ∈ slotNames slots
  · rw [if_pos (hany.mpr hname), if_pos hname, List.mem_map]
    constructor
    · rintro ⟨other, -, hslot⟩
      by_cases heq : other.name = name
      · rw [if_pos heq] at hslot
        exact (congrArg CaptureSlot.kind hslot).symm
      · rw [if_neg heq] at hslot
        exact absurd (congrArg CaptureSlot.name hslot) heq
    · rintro rfl
      obtain ⟨other, hother⟩ := mem_slotNames_iff.mp hname
      exact ⟨⟨name, other⟩, hother, if_pos rfl⟩
  · rw [if_neg (mt hany.mp hname), if_neg hname, List.mem_append, List.mem_singleton]
    constructor
    · rintro (hslot | hslot)
      · exact absurd (mem_slotNames_iff.mpr ⟨kind', hslot⟩) hname
      · exact congrArg CaptureSlot.kind hslot
    · rintro rfl
      exact Or.inr rfl

theorem mergedKind?_eq_none : mergedKind? slots = none ↔ slots = [] := by
  rcases slots with - | ⟨slot, - | ⟨slot', slots⟩⟩ <;> simp [mergedKind?]

theorem mergedKind?_concat (slots : List CaptureSlot) (slot : CaptureSlot) :
    mergedKind? (slots ++ [slot]) = some (if slots = [] then slot.kind else .multiple) := by
  rcases slots with - | ⟨other, - | ⟨other', slots⟩⟩ <;> rfl

/-- **What is declared under a name is told by its declarations.**  The induction is on the last
declaration, which finds what those before it have come to. -/
theorem mem_declareAll (declared : List CaptureSlot) (slot : CaptureSlot) :
    slot ∈ declareAll [] declared ↔
      mergedKind? (declared.filter (·.name = slot.name)) = some slot.kind := by
  induction declared using List.reverseRecOn generalizing slot with
  | nil => simp [declareAll, mergedKind?]
  | append_singleton declared last ih =>
      rw [declareAll_append, List.filter_append]
      show slot ∈ declare last.name last.kind (declareAll [] declared) ↔ _
      by_cases hname : slot.name = last.name
      · obtain ⟨name, kind⟩ := slot
        obtain rfl : name = last.name := hname
        have hseen : last.name ∈ slotNames (declareAll [] declared) ↔
            declared.filter (·.name = last.name) ≠ [] := by
          rw [mem_slotNames_iff, ne_eq, ← mergedKind?_eq_none, ← ne_eq, Option.ne_none_iff_exists']
          exact exists_congr fun kind => ih ⟨last.name, kind⟩
        have hlast : [last].filter (·.name = last.name) = [last] := by simp
        rw [mem_declare_self, hlast, mergedKind?_concat, Option.some.injEq, eq_comm]
        simp only [hseen, ne_eq, ite_not]
      · have hlast : [last].filter (·.name = slot.name) = [] := by simp [Ne.symm hname]
        rw [mem_declare_of_ne hname, hlast, List.append_nil, ih]

theorem mem_captureSlots (p : Pattern) (slot : CaptureSlot) :
    slot ∈ p.captureSlots ↔
      mergedKind? ((p.declarations false).filter (·.name = slot.name)) = some slot.kind := by
  rw [captureSlots, declareCaptures_eq, mem_declareAll]

theorem eq_singleton_of_mergedKind? (h : mergedKind? slots = some .single) :
    ∃ name, slots = [⟨name, .single⟩] := by
  rcases slots with - | ⟨⟨name, kind⟩, - | ⟨slot', slots⟩⟩
  · cases h
  · obtain rfl : kind = .single := Option.some.inj h
    exact ⟨name, rfl⟩
  · cases h

/-- A capture binds one node only if it is declared once, and so declared. -/
theorem filter_declarations_of_single {p : Pattern} (h : ⟨name, .single⟩ ∈ p.captureSlots) :
    (p.declarations false).filter (·.name = name) = [⟨name, .single⟩] := by
  obtain ⟨other, hfilter⟩ := eq_singleton_of_mergedKind? ((mem_captureSlots p _).mp h)
  have hmem : ⟨other, .single⟩ ∈ (p.declarations false).filter (·.name = name) := by
    rw [hfilter]
    exact List.mem_singleton.mpr rfl
  obtain rfl : other = name := by simpa using (List.mem_filter.mp hmem).2
  exact hfilter

/-! ### The order of the declarations -/

theorem mergedKind?_perm (h : slots.Perm declared) : mergedKind? slots = mergedKind? declared := by
  rcases slots with - | ⟨slot, - | ⟨slot', slots⟩⟩
  · rw [h.nil_eq]
  · rw [h.singleton_eq]
  · have hlength := h.length_eq
    rcases declared with - | ⟨other, - | ⟨other', declared⟩⟩
    · simp at hlength
    · simp at hlength
    · rfl

/-- **Names and kinds do not depend on the order of the declarations.** -/
theorem perm_captureSlots {p p' : Pattern}
    (h : (p.declarations false).Perm (p'.declarations false)) :
    p.captureSlots.Perm p'.captureSlots := by
  refine (List.perm_ext_iff_of_nodup (nodup_captureSlots p).of_map
    (nodup_captureSlots p').of_map).mpr fun slot => ?_
  rw [mem_captureSlots, mem_captureSlots, mergedKind?_perm (h.filter _)]

/-! ### Declarations and names -/

mutual

theorem map_name_declarations (repeated : Bool) :
    ∀ p : Pattern, (p.declarations repeated).map CaptureSlot.name = p.recorded
  | test _ | anchor _ | parent => by rw [declarations, recorded, List.map_nil]
  | sequence steps => by
      rw [declarations, recorded]
      exact map_name_declarationsInSteps repeated steps
  | alternation branches => by
      rw [declarations, recorded]
      exact map_name_declarationsInBranches repeated branches
  | repetition body min max _ => by
      rw [declarations, recorded]
      split
      · rfl
      · exact map_name_declarations true body
  | capture name body => by
      rw [declarations, recorded, List.map_cons, map_name_declarations repeated body]

theorem map_name_declarationsInSteps (repeated : Bool) :
    ∀ steps, (declarationsInSteps repeated steps).map CaptureSlot.name = recordedInSteps steps
  | [] => by rw [declarationsInSteps, recordedInSteps, List.map_nil]
  | (_, step) :: steps => by
      rw [declarationsInSteps, recordedInSteps, List.map_append, map_name_declarations repeated step,
        map_name_declarationsInSteps repeated steps]

theorem map_name_declarationsInBranches (repeated : Bool) :
    ∀ branches,
      (declarationsInBranches repeated branches).map CaptureSlot.name = recordedInBranches branches
  | [] => by rw [declarationsInBranches, recordedInBranches, List.map_nil]
  | branch :: branches => by
      rw [declarationsInBranches, recordedInBranches, List.map_append,
        map_name_declarations repeated branch, map_name_declarationsInBranches repeated branches]

end

mutual

/-- Within a repetition every capture binds a list. -/
theorem multiple_of_mem_declarations :
    ∀ p : Pattern, ∀ slot ∈ p.declarations true, slot.kind = .multiple
  | test _, slot, h | anchor _, slot, h | parent, slot, h => by
      rw [declarations] at h
      exact absurd h List.not_mem_nil
  | sequence steps, slot, h => by
      rw [declarations] at h
      exact multiple_of_mem_declarationsInSteps steps slot h
  | alternation branches, slot, h => by
      rw [declarations] at h
      exact multiple_of_mem_declarationsInBranches branches slot h
  | repetition body min max _, slot, h => by
      rw [declarations] at h
      split at h
      · exact absurd h List.not_mem_nil
      · exact multiple_of_mem_declarations body slot h
  | capture name body, slot, h => by
      rw [declarations] at h
      rcases List.mem_cons.mp h with rfl | h
      · rfl
      · exact multiple_of_mem_declarations body slot h

theorem multiple_of_mem_declarationsInSteps :
    ∀ steps, ∀ slot ∈ declarationsInSteps true steps, slot.kind = .multiple
  | [], slot, h => by
      rw [declarationsInSteps] at h
      exact absurd h List.not_mem_nil
  | (_, step) :: steps, slot, h => by
      rw [declarationsInSteps, List.mem_append] at h
      exact h.elim (multiple_of_mem_declarations step slot)
        (multiple_of_mem_declarationsInSteps steps slot)

theorem multiple_of_mem_declarationsInBranches :
    ∀ branches, ∀ slot ∈ declarationsInBranches true branches, slot.kind = .multiple
  | [], slot, h => by
      rw [declarationsInBranches] at h
      exact absurd h List.not_mem_nil
  | branch :: branches, slot, h => by
      rw [declarationsInBranches, List.mem_append] at h
      exact h.elim (multiple_of_mem_declarations branch slot)
        (multiple_of_mem_declarationsInBranches branches slot)

end

/-! ### Declaring again -/

/-- The name has been declared, and binds a list. -/
def Settled (name : String) (slots : List CaptureSlot) : Prop :=
  ∀ kind, ⟨name, kind⟩ ∈ slots ↔ kind = .multiple

theorem settled_declare_self (name : String) (slots : List CaptureSlot) :
    Settled name (declare name .multiple slots) := by
  intro kind
  rw [mem_declare_self, ite_self]

theorem Settled.declare {other : String} (h : Settled name slots) :
    Settled name (declare other kind slots) := by
  intro kind'
  by_cases hname : name = other
  · subst hname
    rw [mem_declare_self, if_pos (mem_slotNames_iff.mpr ⟨.multiple, (h .multiple).mpr rfl⟩)]
  · rw [mem_declare_of_ne hname]
    exact h kind'

theorem Settled.declareAll (h : Settled name slots) (declared : List CaptureSlot) :
    Settled name (declareAll slots declared) := by
  induction declared generalizing slots with
  | nil => exact h
  | cons slot declared ih => exact ih h.declare

theorem declare_of_settled (h : Settled name slots) : declare name kind slots = slots := by
  have hdeclared : slots.any (·.name == name) = true := by
    rw [List.any_eq_true]
    exact ⟨⟨name, .multiple⟩, (h .multiple).mpr rfl, by simp⟩
  have hsame : ∀ slot ∈ slots,
      (if slot.name = name then { slot with kind := .multiple } else slot) = slot := by
    intro slot hslot
    split
    · rename_i hname
      subst hname
      rw [← (h slot.kind).mp hslot]
    · rfl
  rw [Pattern.declare, if_pos hdeclared, List.map_congr_left hsame, List.map_id']

theorem declareAll_of_settled (h : ∀ slot ∈ declared, Settled slot.name slots) :
    declareAll slots declared = slots := by
  induction declared with
  | nil => rfl
  | cons slot declared ih =>
      rw [List.forall_mem_cons] at h
      show declareAll (declare slot.name slot.kind slots) declared = slots
      rw [declare_of_settled h.1]
      exact ih h.2

theorem settled_of_mem (hmultiple : ∀ slot ∈ declared, slot.kind = .multiple) :
    ∀ slot ∈ declared, Settled slot.name (declareAll slots declared) := by
  induction declared generalizing slots with
  | nil => exact fun slot hslot => absurd hslot List.not_mem_nil
  | cons first declared ih =>
      rw [List.forall_mem_cons] at hmultiple ⊢
      refine ⟨?_, ih hmultiple.2⟩
      have hfirst := settled_declare_self first.name slots
      rw [← hmultiple.1] at hfirst
      exact hfirst.declareAll declared

/-- **What lies within a repetition declares the same captures however often it is gone through.** -/
theorem declareCaptures_twice (p : Pattern) (slots : List CaptureSlot) :
    p.declareCaptures true (p.declareCaptures true slots) = p.declareCaptures true slots := by
  rw [declareCaptures_eq, declareCaptures_eq]
  exact declareAll_of_settled (settled_of_mem (multiple_of_mem_declarations p))

/-! ### Slots stay where they are -/

theorem prefix_slotNames_declareAll (slots declared : List CaptureSlot) :
    slotNames slots <+: slotNames (declareAll slots declared) := by
  induction declared generalizing slots with
  | nil => exact List.prefix_refl _
  | cons slot declared ih => exact (prefix_slotNames_declare slot.name slot.kind slots).trans (ih _)

theorem prefix_slotNames_declareCaptures (repeated : Bool) (slots : List CaptureSlot)
    (p : Pattern) : slotNames slots <+: slotNames (p.declareCaptures repeated slots) := by
  rw [declareCaptures_eq]
  exact prefix_slotNames_declareAll slots _

theorem prefix_slotNames_declareInSteps (repeated : Bool) (slots : List CaptureSlot)
    (steps : List (Option Axis × Pattern)) :
    slotNames slots <+: slotNames (declareInSteps repeated slots steps) := by
  rw [declareInSteps_eq]
  exact prefix_slotNames_declareAll slots _

theorem prefix_slotNames_declareInBranches (repeated : Bool) (slots : List CaptureSlot)
    (branches : List Pattern) :
    slotNames slots <+: slotNames (declareInBranches repeated slots branches) := by
  rw [declareInBranches_eq]
  exact prefix_slotNames_declareAll slots _

end TreeRules.Pattern
