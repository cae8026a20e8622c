import Dolphin.Graph.RecentSearch
import Mathlib.Data.List.Range

/-!
# Temporal graphs with sorted rows

The rows lie one behind the other in the tensors and each is sorted by time. Then the
entries of a row before a time are its first ones, and the search finds where they end.
-/

namespace Dolphin.Graph.TemporalCsr

/-- A CSR as the kernels expect it. -/
structure WellFormed (g : TemporalCsr) : Prop where
  last : g.indptr.getLast? = some g.totaleid.length
  rows : g.indptr.Pairwise (· ≤ ·)
  indices : g.indices.length = g.totaleid.length
  sorted : ∀ row, g.SortedRow row

instance (g : TemporalCsr) (row p : Nat) : Decidable (g.InRow row p) :=
  inferInstanceAs (Decidable (_ ∧ _))

variable {g : TemporalCsr}

/-- A node with entries has a row, and the row is inside the tensors. -/
theorem rowEnd_le_length (last : g.indptr.getLast? = some g.totaleid.length)
    (rows : g.indptr.Pairwise (· ≤ ·)) {row p : Nat} (inRow : g.InRow row p) :
    row + 1 < g.indptr.length ∧ g.rowEnd row ≤ g.totaleid.length := by
  have bound : row + 1 < g.indptr.length := by
    by_contra outside
    have inside := inRow.2
    simp [rowEnd, List.getElem?_eq_none (Nat.not_lt.mp outside)] at inside
  refine ⟨bound, ?_⟩
  have nonempty : g.indptr ≠ [] := by
    rintro empty
    simp [empty] at bound
  have total : g.indptr.getLast nonempty = g.totaleid.length := by
    simpa [List.getLast?_eq_getLast_of_ne_nil nonempty] using last
  have stop : g.rowEnd row = g.indptr[row + 1] := by
    simp [rowEnd, bound]
  rw [stop, ← total, List.getLast_eq_getElem]
  rcases Nat.eq_or_lt_of_le (Nat.le_sub_one_of_lt bound) with same | before
  · simp [same]
  · exact List.pairwise_iff_getElem.mp rows _ _ bound _ before

/-- An entry belongs to one row only. -/
theorem inRow_unique (rows : g.indptr.Pairwise (· ≤ ·)) {row other p : Nat}
    (inRow : g.InRow row p) (inOther : g.InRow other p) : row = other := by
  have apart : ∀ {low high : Nat}, g.InRow low p → g.InRow high p → ¬low < high := by
    intro low high inLow inHigh less
    have bound : high + 1 < g.indptr.length := by
      by_contra outside
      have inside := inHigh.2
      simp [rowEnd, List.getElem?_eq_none (Nat.not_lt.mp outside)] at inside
    have ends : g.rowEnd low ≤ g.rowStart high := by
      simp only [rowEnd, rowStart, List.getD_eq_getElem?_getD]
      rw [List.getElem?_eq_getElem (by omega), List.getElem?_eq_getElem (by omega)]
      rcases Nat.eq_or_lt_of_le (Nat.succ_le_of_lt less) with same | before
      · simp [← same]
      · exact List.pairwise_iff_getElem.mp rows _ _ _ _ before
    have low_ := inLow.2
    have high_ := inHigh.1
    omega
  have notLess := apart inRow inOther
  have notGreater := apart inOther inRow
  omega

/-! ## The entries before a time -/

/-- The positions of a row, oldest first. -/
def rowPositions (g : TemporalCsr) (row : Nat) : List Nat :=
  List.range' (g.rowStart row) (g.rowEnd row - g.rowStart row)

/-- The positions of a row whose times are before `ts`, oldest first. -/
def before (g : TemporalCsr) (row ts : Nat) : List Nat :=
  (g.rowPositions row).filter fun p => g.tsAt p < ts

/-- What holds of the first elements of a range only is the filter's prefix. -/
theorem filter_range'_prefix {start count bound : Nat} {test : Nat → Bool} (low : start ≤ bound)
    (spec : ∀ p, start ≤ p → p < start + count → (test p = true ↔ p < bound)) :
    (List.range' start count).filter test = List.range' start (min count (bound - start)) := by
  induction count with
  | zero => simp
  | succ count ih =>
      have rest := ih fun p first last => spec p first (by omega)
      have own := spec (start + count) (by omega) (by omega)
      rw [List.range'_concat, List.filter_append, rest, Nat.one_mul]
      by_cases inside : start + count < bound
      · have all : min (count + 1) (bound - start) = min count (bound - start) + 1 := by omega
        have full : min count (bound - start) = count := by omega
        rw [List.filter_cons_of_pos (own.mpr inside), List.filter_nil, all, full,
          List.range'_concat, Nat.one_mul]
      · have same : min (count + 1) (bound - start) = min count (bound - start) := by omega
        rw [List.filter_cons_of_neg (fun passed => inside (own.mp passed)), List.filter_nil,
          List.append_nil, same]

/-- In a sorted row the entries before a time are the first ones. -/
theorem before_eq_range' {row : Nat} (sorted : g.SortedRow row) (ts : Nat) :
    g.before row ts = List.range' (g.rowStart row) (g.recentEnd row ts - g.rowStart row) := by
  obtain ⟨start, inside, spec⟩ := recentEnd_spec sorted ts
  have test : ∀ p, g.rowStart row ≤ p → p < g.rowStart row + (g.rowEnd row - g.rowStart row) →
      (decide (g.tsAt p < ts) = true ↔ p < g.recentEnd row ts) := by
    intro p low high
    rw [decide_eq_true_iff]
    exact (spec p ⟨low, by omega⟩).symm
  have all : min (g.rowEnd row - g.rowStart row) (g.recentEnd row ts - g.rowStart row) =
      g.recentEnd row ts - g.rowStart row := by omega
  rw [before, rowPositions, filter_range'_prefix start test, all]

/-- The most recent entries of a row before a time, newest first. -/
def recent (g : TemporalCsr) (fanNum row ts : Nat) : List Nat :=
  (g.before row ts).reverse.take fanNum

/-- There are as many as the fanout asks for, or all there are. -/
theorem recent_length (fanNum row ts : Nat) :
    (g.recent fanNum row ts).length = min fanNum (g.before row ts).length := by
  rw [recent, List.length_take, List.length_reverse]

/-- The search ends behind the newest of them. -/
theorem recent_eq_map {row : Nat} (sorted : g.SortedRow row) (fanNum ts : Nat) :
    g.recent fanNum row ts =
      (List.range (min (g.recentEnd row ts - g.rowStart row) fanNum)).map fun j =>
        g.recentEnd row ts - 1 - j := by
  have start := (recentEnd_spec sorted ts).1
  apply List.ext_getElem?
  intro j
  rw [recent, before_eq_range' sorted]
  by_cases picked : j < min (g.recentEnd row ts - g.rowStart row) fanNum
  · have bound : j < (List.range' (g.rowStart row)
        (g.recentEnd row ts - g.rowStart row)).length := by
      rw [List.length_range']
      omega
    rw [List.getElem?_take_of_lt (by omega), List.getElem?_reverse bound, List.length_range',
      List.getElem?_range' (by omega)]
    simp only [List.getElem?_map, List.getElem?_range picked, Option.map_some, Option.some.injEq]
    omega
  · rw [List.getElem?_eq_none, List.getElem?_eq_none]
    · rw [List.length_map, List.length_range]
      exact Nat.not_lt.mp picked
    · simp only [List.length_take, List.length_reverse, List.length_range']
      omega

end Dolphin.Graph.TemporalCsr
