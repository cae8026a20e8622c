import Dolphin.Graph.TemporalCsr

/-!
# What the recent-neighbour search finds

On a row whose entries are sorted by time, `recentEnd row ts` is the position
behind the last entry before `ts`. The search keeps the two ends of its range on
the right sides of `ts`, apart from the row's own ends.
-/

namespace Dolphin.Graph.TemporalCsr

variable {g : TemporalCsr}

/-- The position belongs to the row. -/
def InRow (g : TemporalCsr) (row p : Nat) : Prop := g.rowStart row ≤ p ∧ p < g.rowEnd row

/-- The time of an entry. -/
def tsAt (g : TemporalCsr) (p : Nat) : Nat := g.totalts.getD p 0

/-- The entries of the row do not go back in time. -/
def SortedRow (g : TemporalCsr) (row : Nat) : Prop :=
  ∀ p q, g.rowStart row ≤ p → p ≤ q → q < g.rowEnd row → g.tsAt p ≤ g.tsAt q

/-- The range `left..stop - 1` of the search still has the last entry before `ts`. -/
structure SearchRange (g : TemporalCsr) (row ts left stop : Nat) : Prop where
  start_le : g.rowStart row ≤ left
  left_lt : left < g.rowEnd row
  left_le : left ≤ stop
  stop_le : stop ≤ g.rowEnd row
  before : g.rowStart row < left → g.tsAt left < ts
  behind : stop < g.rowEnd row → ts ≤ g.tsAt stop

/-- A search result: where the loop breaks, the entry and its successor enclose
`ts`; where it ends, the entry at `left` decides. -/
def Found (g : TemporalCsr) (row ts : Nat) : Option Nat × Nat → Prop
  | (some res, _) => g.rowStart row ≤ res ∧ res + 1 < g.rowEnd row ∧ g.tsAt res < ts ∧
      ts ≤ g.tsAt (res + 1)
  | (none, left) => SearchRange g row ts left (left + 1) ∨ SearchRange g row ts left left

/-- A range of at most one entry is a search result. -/
theorem SearchRange.found {row ts left stop : Nat} (range : SearchRange g row ts left stop)
    (narrow : stop ≤ left + 1) : g.Found row ts (none, left) := by
  rcases Nat.eq_or_lt_of_le range.left_le with rfl | wider
  · exact Or.inr range
  · obtain rfl : stop = left + 1 := by omega
    exact Or.inl range

/-- The loop ends in a search result. -/
theorem searchRecent_found {row ts fuel left stop : Nat}
    (range : SearchRange g row ts left stop) (enough : stop ≤ left + 1 + fuel) :
    g.Found row ts (g.searchRecent ts fuel left stop) := by
  induction fuel generalizing left stop with
  | zero =>
      rw [searchRecent]
      exact range.found enough
  | succ fuel ih =>
      rw [searchRecent]
      have start := range.start_le
      have bound := range.left_le
      have end_ := range.stop_le
      split
      case isFalse narrow => exact range.found (by omega)
      case isTrue wide =>
          simp only
          split
          case isTrue hit => exact ⟨by omega, by omega, hit.1, hit.2⟩
          case isFalse miss =>
              split
              case isTrue low =>
                  have next : g.tsAt ((left + (stop - 1)) / 2 + 1) < ts := by
                    by_contra late
                    exact miss ⟨low, Nat.not_lt.mp late⟩
                  exact ih ⟨by omega, by omega, by omega, end_, fun _ => next, range.behind⟩
                    (by omega)
              case isFalse high =>
                  exact ih ⟨start, range.left_lt, by omega, by omega, range.before,
                    fun _ => Nat.not_lt.mp high⟩ (by omega)

/-- A range of at most one entry determines the entries before `ts`: the test at
`left` tells whether that entry is one of them. -/
theorem SearchRange.spec {row ts left stop : Nat} (range : SearchRange g row ts left stop)
    (sorted : g.SortedRow row) (narrow : stop ≤ left + 1) :
    let bound := if g.tsAt left < ts then left + 1 else g.rowStart row
    g.rowStart row ≤ bound ∧ (bound ≤ g.rowEnd row ∨ bound = g.rowStart row) ∧
      ∀ p, g.InRow row p → (p < bound ↔ g.tsAt p < ts) := by
  obtain ⟨start, inside, wide, end_, before, behind⟩ := range
  intro bound
  by_cases early : g.tsAt left < ts
  · have bound_eq : bound = left + 1 := if_pos early
    refine ⟨by omega, Or.inl (by omega), ?_⟩
    rintro p ⟨low, high⟩
    constructor
    · intro below
      exact Nat.lt_of_le_of_lt (sorted p left low (by omega) inside) early
    · intro early_p
      by_contra outside
      have stop_lt : stop < g.rowEnd row := by omega
      have later := sorted stop p (by omega) (by omega) high
      have late := behind stop_lt
      omega
  · have bound_eq : bound = g.rowStart row := if_neg early
    refine ⟨by omega, Or.inr bound_eq, ?_⟩
    rintro p ⟨low, high⟩
    have first : g.rowStart row = left := by
      by_contra later
      exact early (before (by omega))
    have later := sorted left p (by omega) (by omega) high
    omega

/-- `recentEnd` separates the entries before `ts` from the others. -/
theorem recentEnd_spec {row : Nat} (sorted : g.SortedRow row) (ts : Nat) :
    g.rowStart row ≤ g.recentEnd row ts ∧
      (g.recentEnd row ts ≤ g.rowEnd row ∨ g.recentEnd row ts = g.rowStart row) ∧
      ∀ p, g.InRow row p → (p < g.recentEnd row ts ↔ g.tsAt p < ts) := by
  unfold recentEnd
  split
  case isTrue empty =>
      refine ⟨Nat.le_refl _, Or.inr rfl, ?_⟩
      rintro p ⟨low, high⟩
      omega
  case isFalse nonempty =>
      have found : g.Found row ts
          (g.searchRecent ts (g.rowEnd row - g.rowStart row) (g.rowStart row) (g.rowEnd row)) :=
        searchRecent_found
          ⟨Nat.le_refl _, by omega, by omega, Nat.le_refl _, fun outside => by omega,
            fun outside => by omega⟩ (by omega)
      split
      case h_1 res left result =>
          rw [result] at found
          obtain ⟨start, end_, before, behind⟩ := found
          refine ⟨by omega, Or.inl (by omega), ?_⟩
          rintro p ⟨low, high⟩
          constructor
          · intro inside
            exact Nat.lt_of_le_of_lt (sorted p res low (by omega) (by omega)) before
          · intro early
            by_contra outside
            have later := sorted (res + 1) p (by omega) (by omega) high
            omega
      case h_2 left result =>
          rw [result] at found
          exact found.elim (fun range => range.spec sorted (Nat.le_refl _))
            (fun range => range.spec sorted (Nat.le_succ _))

/-- A later time leaves at least as many entries before it. -/
theorem recentEnd_mono {row early late : Nat} (sorted : g.SortedRow row) (later : early ≤ late) :
    g.recentEnd row early ≤ g.recentEnd row late := by
  obtain ⟨start, inside | empty, before⟩ := recentEnd_spec sorted early
  · obtain ⟨start', -, before'⟩ := recentEnd_spec sorted late
    by_contra smaller
    have last : g.InRow row (g.recentEnd row early - 1) := ⟨by omega, by omega⟩
    have early_ := (before _ last).mp (by omega)
    have outside : ¬g.tsAt (g.recentEnd row early - 1) < late := fun inside =>
      absurd ((before' _ last).mpr inside) (by omega)
    omega
  · rw [empty]
    exact (recentEnd_spec sorted late).1

end Dolphin.Graph.TemporalCsr
