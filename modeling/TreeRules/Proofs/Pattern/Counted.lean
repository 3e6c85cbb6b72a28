/-
Counting instructions in words of 64 bits.

`codeLength` is a natural number; a machine counts in words, and a count that does not fit in one
is cut to the largest.  `cappedLength` counts so and remembers whether anything has been cut.  Its
value is the exact count or the largest word, so a comparison with a smaller limit comes out the
same; and nothing is cut where the exact counts of all parts are small.
-/
import TreeRules.Proofs.Pattern.Parts

namespace TreeRules

/-- The largest number in a word of 64 bits. -/
def wordMax : Nat := Nat.pow 2 64 - 1

/-- A count in a word, and whether anything was cut on the way to it. -/
structure Capped where
  value : Nat
  cut : Bool

namespace Capped

/-- A number, cut to the largest word. -/
def count (n : Nat) : Capped := ⟨min wordMax n, wordMax < n⟩

/-- The sum, cut to the largest word. -/
def add (a b : Capped) : Capped :=
  ⟨min wordMax (a.value + b.value), a.cut || b.cut || wordMax < a.value + b.value⟩

/-- The product, cut to the largest word. -/
def mul (a b : Capped) : Capped :=
  ⟨min wordMax (a.value * b.value), a.cut || b.cut || wordMax < a.value * b.value⟩

variable {a b : Capped} {m n : Nat}

theorem count_of_le (h : n ≤ wordMax) : count n = ⟨n, false⟩ := by
  rw [count, Nat.min_eq_right h, decide_eq_false (Nat.not_lt_of_le h)]

theorem add_of_le (h : m + n ≤ wordMax) : add ⟨m, false⟩ ⟨n, false⟩ = ⟨m + n, false⟩ := by
  rw [add, Nat.min_eq_right h, decide_eq_false (Nat.not_lt_of_le h)]
  rfl

theorem mul_of_le (h : m * n ≤ wordMax) : mul ⟨m, false⟩ ⟨n, false⟩ = ⟨m * n, false⟩ := by
  rw [mul, Nat.min_eq_right h, decide_eq_false (Nat.not_lt_of_le h)]
  rfl

theorem value_add (ha : a.value = min wordMax m) (hb : b.value = min wordMax n) :
    (a.add b).value = min wordMax (m + n) := by
  simp only [add, ha, hb]
  omega

/-- A product is cut where one of two factors is, unless the other is nothing. -/
theorem value_mul (ha : a.value = min wordMax m) (hb : b.value = min wordMax n) :
    (a.mul b).value = min wordMax (m * n) := by
  simp only [mul, ha, hb]
  by_cases hm : m = 0
  · simp [hm]
  by_cases hn : n = 0
  · simp [hn]
  by_cases hsmall : m ≤ wordMax ∧ n ≤ wordMax
  · rw [Nat.min_eq_right hsmall.1, Nat.min_eq_right hsmall.2]
  · have hmn : m ≤ m * n := Nat.le_mul_of_pos_right m (Nat.pos_of_ne_zero hn)
    have hnm : n ≤ m * n := Nat.le_mul_of_pos_left n (Nat.pos_of_ne_zero hm)
    have hpos : 0 < wordMax := by decide
    have hmin : min wordMax m ≤ min wordMax m * min wordMax n :=
      Nat.le_mul_of_pos_right _ (by omega)
    have hmin' : min wordMax n ≤ min wordMax m * min wordMax n :=
      Nat.le_mul_of_pos_left _ (by omega)
    omega

end Capped

namespace Pattern

open Capped

mutual

/-- The number of instructions that the pattern is compiled to, counted in words. -/
def cappedLength : Pattern → Capped
  | test _ | anchor _ | parent => count 1
  | sequence steps => cappedSteps (count 0) steps
  | alternation branches =>
    cappedBranches ((count (branches.length - 1)).mul (count 2)) branches
  | repetition body min max _ =>
    ((count min).mul (cappedLength body)).add (match max with
      | some max => (count (max - min)).mul ((cappedLength body).add (count 1))
      | none => (cappedLength body).add (count 2))
  | capture _ body => cappedLength body

/-- The instructions of the steps, after so many. -/
def cappedSteps (total : Capped) : List (Option Axis × Pattern) → Capped
  | [] => total
  | (_, step) :: steps => cappedSteps (total.add (cappedLength step)) steps

/-- The instructions of the branches, after so many. -/
def cappedBranches (total : Capped) : List Pattern → Capped
  | [] => total
  | branch :: branches => cappedBranches (total.add (cappedLength branch)) branches

end

mutual

/-- **The count is exact or the largest word.** -/
theorem value_cappedLength : ∀ p : Pattern, p.cappedLength.value = min wordMax p.codeLength
  | test _ | anchor _ | parent => by rw [cappedLength, codeLength, count]
  | sequence steps => by
      rw [cappedLength, codeLength, value_cappedSteps steps 0 rfl, Nat.zero_add]
  | alternation branches => by
      have hjumps : ((count (branches.length - 1)).mul (count 2)).value =
          min wordMax ((branches.length - 1) * 2) := value_mul rfl rfl
      rw [cappedLength, codeLength, value_cappedBranches branches _ hjumps, Nat.mul_comm,
        Nat.add_comm]
  | repetition body min max greedy => by
      have hbody := value_cappedLength body
      have hneeded : ((count min).mul body.cappedLength).value =
          Nat.min wordMax (min * body.codeLength) := value_mul rfl hbody
      cases max with
      | some max =>
          rw [cappedLength, codeLength]
          exact value_add hneeded (value_mul rfl (value_add hbody rfl))
      | none =>
          rw [cappedLength, codeLength]
          exact value_add hneeded (value_add hbody rfl)
  | capture name body => by rw [cappedLength, codeLength, value_cappedLength body]

theorem value_cappedSteps : ∀ (steps : List (Option Axis × Pattern)) {total : Capped} (n : Nat),
    total.value = min wordMax n →
      (cappedSteps total steps).value = min wordMax (n + stepsLength steps)
  | [], total, n, h => by rw [cappedSteps, stepsLength, h, Nat.add_zero]
  | (_, step) :: steps, total, n, h => by
      rw [cappedSteps, stepsLength, ← Nat.add_assoc]
      exact value_cappedSteps steps _ (value_add h (value_cappedLength step))

theorem value_cappedBranches : ∀ (branches : List Pattern) {total : Capped} (n : Nat),
    total.value = min wordMax n →
      (cappedBranches total branches).value = min wordMax (n + branchesLength branches)
  | [], total, n, h => by rw [cappedBranches, branchesLength, h, Nat.add_zero]
  | branch :: branches, total, n, h => by
      rw [cappedBranches, branchesLength, ← Nat.add_assoc]
      exact value_cappedBranches branches _ (value_add h (value_cappedLength branch))

end

/-- A repetition is found too long by the count in words exactly if it is. -/
theorem cappedLength_le_iff (p : Pattern) :
    p.cappedLength.value ≤ maxCodeLength ↔ p.codeLength ≤ maxCodeLength := by
  have hmax : maxCodeLength < wordMax := by decide
  rw [value_cappedLength]
  omega

/-! ### Counts that are not cut -/

/-- The code of every part is so short, and the bounds of every repetition so small, that counting
cuts nothing. -/
structure Countable (parts : List Pattern) : Prop where
  short : ∀ q ∈ parts, q.codeLength + 2 ≤ wordMax
  bounded : ∀ body min max greedy, repetition body min max greedy ∈ parts →
    min ≤ wordMax ∧ max.getD min ≤ wordMax

theorem Countable.of_subset {parts parts' : List Pattern} (h : Countable parts')
    (hsubset : parts ⊆ parts') : Countable parts where
  short q hq := h.short q (hsubset hq)
  bounded body min max greedy hmem := h.bounded body min max greedy (hsubset hmem)

theorem Countable.of_cons {p : Pattern} {parts : List Pattern} (h : Countable (p :: parts)) :
    p.codeLength + 2 ≤ wordMax ∧ Countable parts :=
  ⟨h.short p List.mem_cons_self, h.of_subset (List.subset_cons_self p parts)⟩

theorem Countable.of_append {parts parts' : List Pattern} (h : Countable (parts ++ parts')) :
    Countable parts ∧ Countable parts' :=
  ⟨h.of_subset (List.subset_append_left parts parts'),
    h.of_subset (List.subset_append_right parts parts')⟩

mutual

/-- **Nothing is cut where the code of every part is short.** -/
theorem cappedLength_eq : ∀ p : Pattern, Countable p.parts →
    p.cappedLength = ⟨p.codeLength, false⟩
  | test _, _ | anchor _, _ | parent, _ => by
      rw [cappedLength, codeLength, count_of_le (by decide)]
  | sequence steps, h => by
      rw [parts] at h
      obtain ⟨hself, hsteps⟩ := h.of_cons
      rw [codeLength] at hself ⊢
      rw [cappedLength, count_of_le (Nat.zero_le _), cappedSteps_eq steps hsteps (by omega),
        Nat.zero_add]
  | alternation branches, h => by
      rw [parts] at h
      obtain ⟨hself, hbranches⟩ := h.of_cons
      rw [codeLength] at hself ⊢
      rw [cappedLength, count_of_le (by omega), count_of_le (by decide), mul_of_le (by omega),
        cappedBranches_eq branches hbranches (by omega), Nat.mul_comm, Nat.add_comm]
  | repetition body min max greedy, h => by
      obtain ⟨hmin, hmax⟩ := h.bounded body min max greedy (mem_parts_self _)
      rw [parts] at h
      obtain ⟨hself, hparts⟩ := h.of_cons
      have hbody := cappedLength_eq body hparts
      have hshort := hparts.short body body.mem_parts_self
      cases max with
      | some max =>
          simp only [Option.getD_some] at hmax
          simp only [codeLength] at hself ⊢
          simp only [cappedLength, hbody]
          rw [count_of_le hmin, count_of_le (by omega), count_of_le (by omega),
            mul_of_le (by omega), add_of_le (by omega), mul_of_le (by omega), add_of_le (by omega)]
      | none =>
          simp only [codeLength] at hself ⊢
          simp only [cappedLength, hbody]
          rw [count_of_le hmin, count_of_le (by omega), mul_of_le (by omega), add_of_le (by omega),
            add_of_le (by omega)]
  | capture name body, h => by
      rw [parts] at h
      rw [cappedLength, codeLength, cappedLength_eq body h.of_cons.2]

theorem cappedSteps_eq : ∀ (steps : List (Option Axis × Pattern)) {n : Nat},
    Countable (partsOfSteps steps) → n + stepsLength steps ≤ wordMax →
      cappedSteps ⟨n, false⟩ steps = ⟨n + stepsLength steps, false⟩
  | [], n, _, _ => by rw [cappedSteps, stepsLength, Nat.add_zero]
  | (_, step) :: steps, n, h, hn => by
      rw [partsOfSteps] at h
      rw [stepsLength, ← Nat.add_assoc] at hn ⊢
      rw [cappedSteps, cappedLength_eq step h.of_append.1, add_of_le (by omega),
        cappedSteps_eq steps h.of_append.2 hn]

theorem cappedBranches_eq : ∀ (branches : List Pattern) {n : Nat},
    Countable (partsOfBranches branches) → n + branchesLength branches ≤ wordMax →
      cappedBranches ⟨n, false⟩ branches = ⟨n + branchesLength branches, false⟩
  | [], n, _, _ => by rw [cappedBranches, branchesLength, Nat.add_zero]
  | branch :: branches, n, h, hn => by
      rw [partsOfBranches] at h
      rw [branchesLength, ← Nat.add_assoc] at hn ⊢
      rw [cappedBranches, cappedLength_eq branch h.of_append.1, add_of_le (by omega),
        cappedBranches_eq branches h.of_append.2 hn]

end

end Pattern

end TreeRules
