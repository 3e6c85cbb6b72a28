/-
Lines that lie beneath the nearest line above that is indented less.

The rule looks back: the parent of a line is the latest line before it that is indented less,
however many lines stand in between.  Reading does not look back.  It keeps the lines that a later
line may still lie beneath and completes the others.

`Standing` is what makes the two agree.  Each open line is the parent of the next one further in,
all lines after an open line are indented more than it, and it holds its children up to the next
open line.  A line is completed by one that is indented no more than it, and from then on that one
lies between it and any later line, so no later line is a child of it.
-/
import Mathlib.Data.List.Basic
import TreeRules.ValueTree.Outline

namespace TreeRules.ValueTree

open OpenLine

/-! ### The rule -/

/-- The line that line `i` lies beneath: the latest line before it that is indented less. -/
def parentLine (width : Nat → Nat) (i : Nat) : Option Nat :=
  ((List.range i).filter fun j => width j < width i).getLast?

variable {width : Nat → Nat} {i j : Nat}

/-- **The parent is before the line and indented less, and no line in between is.** -/
theorem parentLine_eq_some_iff :
    parentLine width i = some j ↔ j < i ∧ width j < width i ∧
      ∀ k, j < k → k < i → width i ≤ width k := by
  have hsorted : ((List.range i).filter fun j => width j < width i).Pairwise (· < ·) :=
    List.pairwise_lt_range.filter _
  unfold parentLine
  constructor
  · intro h
    have hmem := List.mem_of_getLast? h
    simp only [List.mem_filter, List.mem_range, decide_eq_true_eq] at hmem
    refine ⟨hmem.1, hmem.2, ?_⟩
    intro k hjk hki
    by_contra hlt
    -- a line in between that is indented less would come behind the last one
    obtain ⟨before, hsplit⟩ := List.getLast?_eq_some_iff.mp h
    have hk : k ∈ (List.range i).filter fun j => width j < width i := by
      simp only [List.mem_filter, List.mem_range, decide_eq_true_eq]
      omega
    rw [hsplit] at hk hsorted
    rcases List.mem_append.mp hk with hk | hk
    · have := (List.pairwise_append.mp hsorted).2.2 k hk j (List.mem_singleton_self j)
      omega
    · have := List.mem_singleton.mp hk
      omega
  · rintro ⟨hji, hlt, hnearest⟩
    have hj : j ∈ (List.range i).filter fun j => width j < width i := by
      simp only [List.mem_filter, List.mem_range, decide_eq_true_eq]
      exact ⟨hji, hlt⟩
    cases hlast : ((List.range i).filter fun j => width j < width i).getLast? with
    | none =>
        rw [List.getLast?_eq_none_iff.mp hlast] at hj
        simp at hj
    | some k =>
        have hk := List.mem_of_getLast? hlast
        simp only [List.mem_filter, List.mem_range, decide_eq_true_eq] at hk
        obtain ⟨before, hsplit⟩ := List.getLast?_eq_some_iff.mp hlast
        rw [hsplit] at hj hsorted
        have hjk : j ≤ k := by
          rcases List.mem_append.mp hj with hj | hj
          · exact Nat.le_of_lt
              ((List.pairwise_append.mp hsorted).2.2 j hj k (List.mem_singleton_self k))
          · exact Nat.le_of_eq (List.mem_singleton.mp hj)
        by_cases hne : j = k
        · rw [hne]
        · have := hnearest k (by omega) hk.1
          omega

theorem parentLine_eq_none_iff :
    parentLine width i = none ↔ ∀ j, j < i → width i ≤ width j := by
  simp [parentLine]

/-- The lines that lie beneath line `i` among the first `n` lines, from the top. -/
def childLines (width : Nat → Nat) (n i : Nat) : List Nat :=
  (List.range n).filter fun k => parentLine width k = some i

theorem mem_childLines {n k : Nat} :
    k ∈ childLines width n i ↔ k < n ∧ parentLine width k = some i := by
  simp [childLines]

/-- A line has no children above it. -/
theorem childLines_self (width : Nat → Nat) (i : Nat) : childLines width (i + 1) i = [] := by
  rw [childLines, List.filter_eq_nil_iff]
  intro k hk
  simp only [List.mem_range] at hk
  simp only [decide_eq_true_eq, parentLine_eq_some_iff]
  omega

theorem childLines_succ (h : parentLine width i = some j) :
    childLines width (i + 1) j = childLines width i j ++ [i] := by
  simp [childLines, List.range_succ, h]

/-- Lines that lie elsewhere make no difference. -/
theorem childLines_of_le {m n : Nat} (hle : m ≤ n)
    (h : ∀ k, m ≤ k → k < n → parentLine width k ≠ some i) :
    childLines width n i = childLines width m i := by
  induction n with
  | zero => rw [Nat.le_zero.mp hle]
  | succ n ih =>
      by_cases hm : m = n + 1
      · rw [hm]
      · have hn := h n (by omega) (by omega)
        rw [← ih (by omega) fun k hmk hkn => h k hmk (by omega)]
        simp [childLines, List.range_succ, hn]

/-! ### The tree of the lines -/

/-- How far a line is indented. -/
def widthAt (entries : List (Nat × String)) (i : Nat) : Nat := (entries.getD i (0, "")).1

/-- What stands on a line. -/
def valueAt (entries : List (Nat × String)) (i : Nat) : String := (entries.getD i (0, "")).2

/-- The tree of line `i`: what stands there, and beneath it the trees of the lines that lie beneath
it. -/
def treeAt (entries : List (Nat × String)) (i : Nat) : ValueTree :=
  .node (valueAt entries i)
    ((childLines (widthAt entries) entries.length i).attach.map fun k => treeAt entries k.val)
  termination_by entries.length - i
  decreasing_by
    obtain ⟨hlt, hparent⟩ := mem_childLines.mp k.property
    have := (parentLine_eq_some_iff.mp hparent).1
    omega

variable {entries : List (Nat × String)} {limit : Nat}

theorem treeAt_eq (entries : List (Nat × String)) (i : Nat) :
    treeAt entries i = .node (valueAt entries i)
      ((childLines (widthAt entries) entries.length i).map (treeAt entries)) := by
  rw [treeAt, List.attach_map_val]

/-! ### Lines that are open -/

/-- Line `i` with those of its children that stand before line `limit`. -/
def openAt (entries : List (Nat × String)) (limit i : Nat) : OpenLine :=
  ⟨widthAt entries i, valueAt entries i,
    ((childLines (widthAt entries) limit i).map (treeAt entries)).reverse⟩

/-- Where no line from `limit` on lies beneath line `i`, it has all of its children. -/
theorem tree_openAt (hlimit : limit ≤ entries.length)
    (h : ∀ k, limit ≤ k → k < entries.length → parentLine (widthAt entries) k ≠ some i) :
    (openAt entries limit i).tree = treeAt entries i := by
  rw [treeAt_eq, OpenLine.tree, openAt, List.reverse_reverse, childLines_of_le hlimit h]

/-- A complete tree is one more child of its parent, which has no others up to `limit`. -/
theorem add_openAt (hparent : parentLine (widthAt entries) i = some j) (hi : i < limit)
    (h : ∀ k, i < k → k < limit → parentLine (widthAt entries) k ≠ some j) :
    (openAt entries i j).add (treeAt entries i) = openAt entries limit j := by
  rw [OpenLine.add, openAt, openAt, childLines_of_le (Nat.succ_le_of_lt hi) h,
    childLines_succ hparent]
  simp

theorem takeIn_cons (width : Nat) (value : String) (line : OpenLine) (outers : List OpenLine) :
    takeIn width value (line :: outers) =
      if width ≤ (closeTo width line outers).1.width then none
      else some (⟨width, value, []⟩ :: (closeTo width line outers).1 ::
        (closeTo width line outers).2) := rfl

/-- The open lines when line `limit` comes, of which line `i` is the innermost. -/
inductive Standing (entries : List (Nat × String)) : (limit i : Nat) → List OpenLine → Prop
  /-- The first line is never completed before the end. -/
  | first {limit : Nat} (deeper : ∀ k, 0 < k → k < limit → widthAt entries 0 < widthAt entries k) :
    Standing entries limit 0 [openAt entries limit 0]
  | beneath {limit i j : Nat} {outers : List OpenLine}
    (parent : parentLine (widthAt entries) i = some j) (outside : Standing entries i j outers)
    (deeper : ∀ k, i < k → k < limit → widthAt entries i < widthAt entries k) :
    Standing entries limit i (openAt entries limit i :: outers)

namespace Standing

variable {lines outers : List OpenLine} {line : OpenLine}

theorem head_eq (h : Standing entries limit i (line :: outers)) :
    line = openAt entries limit i := by
  cases h <;> rfl

theorem deeper (h : Standing entries limit i lines) {k : Nat} (hik : i < k) (hk : k < limit) :
    widthAt entries i < widthAt entries k := by
  cases h with
  | first deeper => exact deeper k hik hk
  | beneath _ _ deeper => exact deeper k hik hk

/-- **The innermost line can be completed** once no later line lies beneath it. -/
theorem complete {outer : OpenLine} (h : Standing entries limit i (line :: outer :: outers))
    (hi : i < limit) (hlimit : limit ≤ entries.length)
    (hlate : ∀ k, limit ≤ k → k < entries.length → parentLine (widthAt entries) k ≠ some i) :
    ∃ j, parentLine (widthAt entries) i = some j ∧
      Standing entries limit j (outer.add line.tree :: outers) := by
  cases h with
  | @beneath _ _ j _ hparent outside hdeeper =>
      refine ⟨j, hparent, ?_⟩
      obtain ⟨hji, hlt, -⟩ := parentLine_eq_some_iff.mp hparent
      -- what comes after line `i` and is indented more does not lie further out
      have hbetween : ∀ k, i < k → k < limit → parentLine (widthAt entries) k ≠ some j := by
        intro k hik hk hkj
        have hle := (parentLine_eq_some_iff.mp hkj).2.2 i hji hik
        have hmore := hdeeper k hik hk
        omega
      have hadd : outer.add (openAt entries limit i).tree = openAt entries limit j := by
        rw [outside.head_eq, tree_openAt hlimit hlate, add_openAt hparent hi hbetween]
      have hdeeper' : ∀ k, j < k → k < limit → widthAt entries j < widthAt entries k := by
        intro k hjk hk
        by_cases hki : k < i
        · exact outside.deeper hjk hki
        · by_cases heq : k = i
          · rw [heq]
            exact hlt
          · have hmore := hdeeper k (by omega) hk
            omega
      rw [hadd]
      cases outside with
      | first => exact .first hdeeper'
      | beneath hparent' outside' _ => exact .beneath hparent' outside' hdeeper'

/-- **Completing lines leaves the parent of the next line**, or the first line if it has none. -/
theorem closeTo (hlimit : limit < entries.length) :
    ∀ (outers : List OpenLine) {line : OpenLine} {i : Nat},
      Standing entries limit i (line :: outers) → i < limit →
      (∀ k, i < k → k < limit → widthAt entries limit ≤ widthAt entries k) →
      ∃ j, j < limit ∧
        Standing entries limit j ((OpenLine.closeTo (widthAt entries limit) line outers).1 ::
          (OpenLine.closeTo (widthAt entries limit) line outers).2) ∧
        (∀ k, j < k → k < limit → widthAt entries limit ≤ widthAt entries k) ∧
        (widthAt entries j < widthAt entries limit ∨ j = 0) := by
  intro outers
  induction outers with
  | nil =>
      intro line i h hi hle
      refine ⟨i, hi, h, hle, Or.inr ?_⟩
      cases h with
      | first => rfl
      | beneath _ outside _ => cases outside
  | cons outer outers ih =>
      intro line i h hi hle
      have hwidth : line.width = widthAt entries i := by
        rw [h.head_eq]
        rfl
      by_cases hline : widthAt entries limit ≤ line.width
      · rw [OpenLine.closeTo, if_pos hline]
        have hlate : ∀ k, limit ≤ k → k < entries.length →
            parentLine (widthAt entries) k ≠ some i := by
          intro k hk _ hparent
          obtain ⟨-, hlt, hnearest⟩ := parentLine_eq_some_iff.mp hparent
          by_cases heq : k = limit
          · rw [heq] at hlt
            omega
          · have := hnearest limit hi (by omega)
            omega
        obtain ⟨j, hparent, hstanding⟩ := h.complete hi (Nat.le_of_lt hlimit) hlate
        obtain ⟨hji, -, hnearest⟩ := parentLine_eq_some_iff.mp hparent
        refine ih hstanding (by omega) ?_
        intro k hjk hk
        by_cases hki : k < i
        · have := hnearest k hjk hki
          omega
        · by_cases heq : k = i
          · rw [heq]
            omega
          · exact hle k (by omega) hk
      · rw [OpenLine.closeTo, if_neg hline]
        exact ⟨i, hi, h, hle, Or.inl (by omega)⟩

/-- **The next line is taken in beneath its parent**; if it has none, it is refused. -/
theorem takeIn (h : Standing entries (i + 1) i lines) (hlimit : i + 1 < entries.length) :
    (∃ j lines', parentLine (widthAt entries) (i + 1) = some j ∧
      OpenLine.takeIn (widthAt entries (i + 1)) (valueAt entries (i + 1)) lines = some lines' ∧
        Standing entries (i + 2) (i + 1) lines') ∨
    (parentLine (widthAt entries) (i + 1) = none ∧
      OpenLine.takeIn (widthAt entries (i + 1)) (valueAt entries (i + 1)) lines = none) := by
  cases lines with
  | nil => cases h
  | cons line outers =>
      obtain ⟨j, hj, hstanding, hle, hlt⟩ :=
        h.closeTo hlimit outers (by omega) (fun k hik hk => by omega)
      have hwidth : (OpenLine.closeTo (widthAt entries (i + 1)) line outers).1.width =
          widthAt entries j := by
        rw [hstanding.head_eq]
        rfl
      rw [takeIn_cons, hwidth]
      by_cases hless : widthAt entries j < widthAt entries (i + 1)
      · have hparent : parentLine (widthAt entries) (i + 1) = some j :=
          parentLine_eq_some_iff.mpr ⟨hj, hless, hle⟩
        have hnew : openAt entries (i + 2) (i + 1) =
            ⟨widthAt entries (i + 1), valueAt entries (i + 1), []⟩ := by
          rw [openAt, childLines_self]
          rfl
        refine Or.inl ⟨j, _, hparent, if_neg (by omega), ?_⟩
        rw [← hnew]
        exact .beneath hparent hstanding fun k _ _ => by omega
      · refine Or.inr ⟨parentLine_eq_none_iff.mpr ?_, if_pos (by omega)⟩
        intro k hk
        by_cases hjk : j < k
        · exact hle k hjk hk
        · have hkj : k = j := by omega
          rw [hkj]
          omega

/-- At the end the lines make the tree of the first line. -/
theorem closeAll (h : Standing entries entries.length i lines) (hi : i < entries.length) :
    OpenLine.closeAll lines = some (treeAt entries 0) := by
  have hlate : ∀ i k, entries.length ≤ k → k < entries.length →
      parentLine (widthAt entries) k ≠ some i := by
    intro i k hk hlt
    omega
  cases lines with
  | nil => cases h
  | cons line outers =>
      induction outers generalizing line i with
      | nil =>
          cases h with
          | first =>
              show some (openAt entries entries.length 0).tree = _
              rw [tree_openAt (Nat.le_refl _) (hlate 0)]
          | beneath _ outside _ => cases outside
      | cons outer outers ih =>
          obtain ⟨j, hparent, hstanding⟩ := h.complete hi (Nat.le_refl _) (hlate i)
          have hji := (parentLine_eq_some_iff.mp hparent).1
          exact ih (i := j) (by omega) _ hstanding

end Standing

end TreeRules.ValueTree
