import Dolphin.ValidEdge.GenExpire

/-!
# What the expire kernel marks

Whatever roots are processed and in whatever order, an entry ends up marked exactly if
for one of them the fanout and more entries of its row are newer and still before the
root's time. The walk back from the boundary may therefore stop at the first entry that
is marked already: everything before it is marked too.
-/

namespace Dolphin.ValidEdge

open Dolphin.Graph Dolphin.Sampler

/-- How many later entries of the row are before a time. -/
def newer (g : TemporalCsr) (row p ts : Nat) : Nat :=
  ((List.range' (p + 1) (g.rowEnd row - (p + 1))).filter fun q => g.tsAt q < ts).length

/-- The kernel's walk without its early exit: all `count` entries are marked. -/
def expireLoopAll (rowStart : Nat) : Nat → List Bool → List Bool
  | 0, expired => expired
  | count + 1, expired => expireLoopAll rowStart count (expired.set (rowStart + count) true)

/-- The thread of one root that walks to the start of the row. -/
def expireRowAll (g : TemporalCsr) (numPicks : Nat) (expired : List Bool) (root : Root) :
    List Bool :=
  let deg := g.recentEnd root.1 root.2 - g.rowStart root.1
  expireLoopAll (g.rowStart root.1) (deg - min deg numPicks) expired

/-- No entry is marked. -/
def unmarked (g : TemporalCsr) : List Bool := List.replicate g.indices.length false

variable {g : TemporalCsr}

/-! ## The boundary and the fanout -/

/-- The fanout ends behind an entry if enough entries before the time are newer. -/
theorem add_lt_recentEnd_iff {row p : Nat} (sorted : g.SortedRow row) (inRow : g.InRow row p)
    (numPicks ts : Nat) :
    p + numPicks < g.recentEnd row ts ↔ g.tsAt p < ts ∧ numPicks ≤ newer g row p ts := by
  obtain ⟨start, inside, spec⟩ := TemporalCsr.recentEnd_spec sorted ts
  have own := spec p inRow
  obtain ⟨low, high⟩ := inRow
  have test : ∀ q, p + 1 ≤ q → q < p + 1 + (g.rowEnd row - (p + 1)) →
      (decide (g.tsAt q < ts) = true ↔ q < max (p + 1) (g.recentEnd row ts)) := by
    intro q after last
    have other := spec q ⟨by omega, by omega⟩
    rw [decide_eq_true_iff, ← other]
    omega
  rw [newer, TemporalCsr.filter_range'_prefix (Nat.le_max_left _ _) test, List.length_range',
    ← own]
  omega

/-- A marked entry in the terms of its row. -/
theorem marked_iff (formed : g.WellFormed) {numPicks : Nat} {roots : List Root} {row p : Nat}
    (inRow : g.InRow row p) :
    Marked g numPicks roots p ↔
      ∃ ts, (row, ts) ∈ roots ∧ g.tsAt p < ts ∧ numPicks ≤ newer g row p ts := by
  constructor
  · rintro ⟨⟨other, ts⟩, member, inOther, behind⟩
    obtain rfl : row = other := TemporalCsr.inRow_unique formed.rows inRow inOther
    exact ⟨ts, member, (add_lt_recentEnd_iff (formed.sorted row) inRow numPicks ts).mp behind⟩
  · rintro ⟨ts, member, behind⟩
    exact ⟨(row, ts), member, inRow,
      (add_lt_recentEnd_iff (formed.sorted row) inRow numPicks ts).mpr behind⟩

/-- What is marked begins the row. -/
theorem Marked.before (formed : g.WellFormed) {numPicks : Nat} {roots : List Root}
    {row p q : Nat} (marked : Marked g numPicks roots q) (inRow : g.InRow row q)
    (start : g.rowStart row ≤ p) (order : p ≤ q) : Marked g numPicks roots p := by
  obtain ⟨root, member, inOther, behind⟩ := marked
  obtain rfl : row = root.1 := TemporalCsr.inRow_unique formed.rows inRow inOther
  exact ⟨root, member, ⟨start, Nat.lt_of_le_of_lt order inRow.2⟩, by omega⟩

/-! ## The runs -/

/-- From no marks on, exactly the marked entries are set. -/
theorem sampleExpire_unmarked (formed : g.WellFormed) (numPicks : Nat) (roots : List Root)
    (p : Nat) :
    (sampleExpire g numPicks roots (unmarked g)).getD p false = true ↔
      Marked g numPicks roots p := by
  have none_ : ∀ p, (unmarked g).getD p false = true ↔ Marked g numPicks [] p := by
    intro p
    rw [unmarked, initial_unmarked]
    simp [Marked]
  have length : (unmarked g).length = g.totaleid.length := by
    rw [unmarked, List.length_replicate, formed.indices]
  have run : (sampleExpire g numPicks roots (unmarked g)).getD p false = true ↔
      Marked g numPicks ([] ++ roots) p := sampleExpire_getD formed length none_ p
  rwa [List.nil_append] at run

/-- Two tensors of one length with the same marks are the same. -/
theorem marks_ext {left right : List Bool} (length : left.length = right.length)
    (marks : ∀ p, left.getD p false = true ↔ right.getD p false = true) : left = right := by
  apply List.ext_getElem length
  intro p inLeft inRight
  have mark := marks p
  rw [List.getD_eq_getElem?_getD, List.getD_eq_getElem?_getD, List.getElem?_eq_getElem inLeft,
    List.getElem?_eq_getElem inRight] at mark
  exact Bool.eq_iff_iff.mpr mark

@[simp] theorem expireLoopAll_length (rowStart count : Nat) (expired : List Bool) :
    (expireLoopAll rowStart count expired).length = expired.length := by
  induction count generalizing expired with
  | zero => rfl
  | succ count ih => rw [expireLoopAll, ih, List.length_set]

/-- The walk to the row's start marks all it passes. -/
theorem expireLoopAll_getD {rowStart count : Nat} {expired : List Bool}
    (room : 0 < count → rowStart + count ≤ expired.length) (p : Nat) :
    (expireLoopAll rowStart count expired).getD p false = true ↔
      expired.getD p false = true ∨ rowStart ≤ p ∧ p < rowStart + count := by
  induction count generalizing expired with
  | zero =>
      rw [expireLoopAll]
      refine ⟨Or.inl, fun marked => marked.resolve_right ?_⟩
      omega
  | succ count ih =>
      have bound := room (Nat.succ_pos count)
      rw [expireLoopAll, ih (fun _ => by rw [List.length_set]; omega)]
      simp only [List.getD_eq_getElem?_getD, List.getElem?_set]
      by_cases own : rowStart + count = p
      · rw [if_pos own, if_pos (by omega)]
        simp only [Option.getD_some, true_or, true_iff]
        exact Or.inr (by omega)
      · rw [if_neg own]
        refine or_congr_right ?_
        omega

/-- Where the marks begin their rows, the early exit leaves nothing out. -/
theorem expireRow_eq_all (formed : g.WellFormed) {numPicks : Nat} {roots : List Root}
    {expired : List Bool} (length : expired.length = g.totaleid.length)
    (marked : ∀ p, expired.getD p false = true ↔ Marked g numPicks roots p) (root : Root) :
    expireRow g numPicks expired root = expireRowAll g numPicks expired root := by
  obtain ⟨start, bounded, -⟩ := TemporalCsr.recentEnd_spec (formed.sorted root.1) root.2
  apply marks_ext
  · rw [expireRow_length, expireRowAll, expireLoopAll_length]
  · intro p
    have room := expireRow_room formed numPicks length root
    rw [expireRow, expireRowAll, expireLoopAll_getD room, expireLoop_spec room]
    intro low high first order last later
    rw [marked] at later ⊢
    have inRow : g.InRow root.1 high := ⟨by omega, by omega⟩
    exact later.before formed inRow first order

/-- No mark is lost by the early exit, whatever has been processed before. -/
theorem sampleExpire_eq_all (formed : g.WellFormed) {numPicks : Nat} {done roots : List Root}
    {expired : List Bool} (length : expired.length = g.totaleid.length)
    (marked : ∀ p, expired.getD p false = true ↔ Marked g numPicks done p) :
    roots.foldl (expireRowAll g numPicks) expired = sampleExpire g numPicks roots expired := by
  induction roots generalizing done expired with
  | nil => rfl
  | cons root roots ih =>
      have next := expireRow_getD formed length marked root
      have kept := (expireRow_length g numPicks expired root).trans length
      rw [List.foldl_cons, ← expireRow_eq_all formed length marked root, ih kept next]
      rfl

/-- After any sequence of roots: an entry is marked exactly if for one of them it is
before the root's time with at least the fanout of newer entries of its row; the marks
begin each row; the order of the roots does not matter; and the early exit loses no
mark. -/
theorem expired_closed_form (formed : g.WellFormed) (numPicks : Nat) (roots : List Root) :
    let expired := sampleExpire g numPicks roots (unmarked g)
    (∀ row p, g.InRow row p → (expired.getD p false = true ↔
      ∃ ts, (row, ts) ∈ roots ∧ g.tsAt p < ts ∧ numPicks ≤ newer g row p ts)) ∧
    (∀ row p q, g.InRow row q → g.rowStart row ≤ p → p ≤ q → expired.getD q false = true →
      expired.getD p false = true) ∧
    (∀ other, other.Perm roots → sampleExpire g numPicks other (unmarked g) = expired) ∧
    roots.foldl (expireRowAll g numPicks) (unmarked g) = expired := by
  have closed := sampleExpire_unmarked formed numPicks
  refine ⟨?_, ?_, ?_, ?_⟩
  · intro row p inRow
    rw [closed, marked_iff formed inRow]
  · intro row p q inRow start order later
    rw [closed] at later ⊢
    exact later.before formed inRow start order
  · intro other perm
    apply marks_ext
    · rw [sampleExpire_length, sampleExpire_length]
    · intro p
      rw [closed, closed]
      exact ⟨fun marked => marked.mono fun root member => perm.mem_iff.mp member,
        fun marked => marked.mono fun root member => perm.mem_iff.mpr member⟩
  · exact sampleExpire_eq_all formed (by rw [unmarked, List.length_replicate, formed.indices])
      (sampleExpire_unmarked formed numPicks [])

/-- Two rows, of which the first has three entries of the times 1, 2 and 2. -/
def twoRows : TemporalCsr := ⟨[0, 3, 4], [1, 1, 1, 0], [1, 2, 2, 1], [0, 1, 2, 0]⟩

theorem twoRows_formed : twoRows.WellFormed where
  last := rfl
  rows := by decide
  indices := rfl
  sorted := by
    intro row p q start order inside
    match row with
    | 0 =>
        have bound : q < 3 := inside
        obtain rfl | rfl | rfl : q = 0 ∨ q = 1 ∨ q = 2 := by omega
        all_goals revert order; revert p; decide
    | 1 =>
        have low : 3 ≤ p := start
        have bound : q < 4 := inside
        obtain rfl : p = q := by omega
        exact Nat.le_refl _
    | row + 2 => exact absurd inside (by simp [TemporalCsr.rowEnd, twoRows])

theorem expired_closed_form_two_rows :
    ((sampleExpire twoRows 1 [(1, 3), (0, 3)] (unmarked twoRows)).getD 1 false = true ↔
      ∃ ts, (0, ts) ∈ [(1, 3), (0, 3)] ∧ twoRows.tsAt 1 < ts ∧ 1 ≤ newer twoRows 0 1 ts) ∧
    sampleExpire twoRows 1 [(0, 3), (1, 3)] (unmarked twoRows) =
      sampleExpire twoRows 1 [(1, 3), (0, 3)] (unmarked twoRows) := by
  obtain ⟨entries, -, orders, -⟩ := expired_closed_form twoRows_formed 1 [(1, 3), (0, 3)]
  exact ⟨entries 0 1 (by decide), orders _ (List.Perm.swap _ _ _)⟩

end Dolphin.ValidEdge
